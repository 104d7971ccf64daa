import AvmAssembler.Proofs.Source.Recurrence
import AvmAssembler.Proofs.Source.Spelling

/-! # An inclusion is a splice

A text with an inclusion on a line of its own is read as the text before it, the file that is included, and the text
after it are read by themselves: the same statements come one after another, and only those of the text after the
inclusion stand further down than by themselves.
-/

namespace AvmAssembler

open FileTree (inputName)

def inclusionLine (path : String) : String :=
  "include \"" ++ path ++ "\""

/-- The path can stand between quotes as it is. -/
def IsPlainPath (path : String) : Prop :=
  ∀ c ∈ path.toList, c ≠ '"' ∧ c ≠ '\\' ∧ c ≠ '\n'

theorem Lexeme.escaped_of_plain {cs : List Char} (h : ∀ c ∈ cs, c ≠ '"' ∧ c ≠ '\\' ∧ c ≠ '\n') :
    escaped cs = cs := by
  induction cs with
  | nil => rfl
  | cons c cs ih =>
    obtain ⟨hquote, hescape, hnewline⟩ := h c List.mem_cons_self
    have hrest := ih fun d hd => h d (List.mem_cons_of_mem c hd)
    simp only [escaped, List.flatMap_cons, hquote, hescape, hnewline, if_false] at hrest ⊢
    rw [hrest]
    rfl

theorem inclusionLine_spells {path : String} (h : IsPlainPath path) :
    Spells (inclusionLine path).toList [.keyword .inclusion, .string path] := by
  have hstring := Terminal.spelledBy_string path
  rw [Lexeme.escaped_of_plain h] at hstring
  have hend : Spells ('"' :: (path.toList ++ ['"'])) [.string path] := by
    simpa [Terminal.string] using Spells.cons hstring Lexeme.delimited_nil .nil
  have hspace : Lexeme.Delimited (' ' :: '"' :: (path.toList ++ ['"'])) :=
    Lexeme.delimited_cons (by decide) (by decide) (by decide)
  have hline := Spells.cons (Terminal.isLexeme_keyword .inclusion) hspace (.blank (by decide) hend)
  simpa [inclusionLine, Terminal.spelling, Terminal.keyword, Keyword.word] using hline

namespace Unit

/-- The line falls into one item, the inclusion of its path. -/
theorem inclusionLine_fallsInto {path : String} (h : IsPlainPath path) (file : String) :
    ∃ keyword location, FallsInto file (inclusionLine path) [.inclusion keyword path location] := by
  obtain ⟨tokens, l, hstream, hterminals⟩ := tokenize_of_spells (inclusionLine_spells h) file
  obtain ⟨t, us, rfl, ht, hus⟩ := List.map_eq_cons_iff.1 hterminals
  obtain ⟨p, rfl, hp⟩ := List.map_eq_singleton_iff.1 hus
  have hkind : t.kind = .keyword .inclusion := congrArg Terminal.kind ht
  have htext : p.text = path := congrArg Terminal.text hp
  have hitem : (Grammar.item (.complete l) t [p]).val = .read (.inclusion t.location path p.location) [] := by
    simp only [Grammar.item, hkind]
    refine Phrase.bind_read (Grammar.take_read l t [p]) fun _ => ?_
    rw [Phrase.map_read (Grammar.filePath_read (congrArg Terminal.kind hp)), htext]
  refine ⟨t.location, p.location, l, congrArg Prod.snd hstream, ?_⟩
  rw [hstream]
  exact .cons hitem .nil

/-- Where the file may be included, the line consists of the statements of the file. -/
theorem inclusionLine_consistsOf {env : Surroundings} {active : List Place} {file path text : String} {r : Path}
    {place : Place} {content : List UInt8} {parts : List Part} (h : IsPlainPath path)
    (hsought : sought? env file path = .ok (some (r, place, content))) (hidle : place ∉ active)
    (htext : FileTree.textOf content = .ok text) (hparts : ConsistsOf env (active ++ [place]) r.written text parts) :
    ConsistsOf env active file (inclusionLine path) [.included (splice parts)] := by
  obtain ⟨is, hfalls, hinner⟩ := hparts
  obtain ⟨keyword, location, hline⟩ := inclusionLine_fallsInto h file
  exact ⟨_, hline, .inclusion hsought hidle htext hfalls hinner .nil⟩

/-- A file that is read by itself without faults may be included. -/
theorem ConsistsOf.of_initial {env : Surroundings} {r : Path} (hr : r.WellFormed) {place : Place} {content : List UInt8}
    {x : Bool} {text : String} {active : List ActiveFile} {parts : List Part}
    (htarget : env.tree.target r = .file place content x) (htext : FileTree.textOf content = .ok text)
    (hactive : initiallyActive env r.written = .ok active)
    (h : ConsistsOf env (active.map ActiveFile.place) r.written text parts) :
    ConsistsOf env [place] r.written text parts := by
  rcases initiallyActive_eq_ok hactive with rfl | ⟨found, hfound, rfl⟩
  · -- Read under the name of the input, the file is not known to be under way.
    exact h.under hr htarget htext
  · obtain ⟨_, _, hfile⟩ := FileTree.place?_eq_some.1 hfound
    rw [hr.ofString_written, htarget] at hfile
    obtain ⟨rfl, -, -⟩ := Target.file.inj hfile
    exact h

end Unit

/-! ## Statements that are written in the input -/

/-- The place so many lines further down in a file; places in other files stay. -/
def Location.downIn (file : String) (n : Nat) (l : Location) : Location :=
  if l.file = file then l.down n else l

namespace Unit

/-- The items of a text are those of the file it is in. -/
theorem FallsInto.relocate_inFile {file text : String} {is : List Grammar.Item} (h : FallsInto file text is) :
    is.map (Grammar.Item.relocate (Location.inFile file)) = is :=
  (h.inFile h).symm

/-- Of places in a file, two ways to move them that agree there make no difference. -/
theorem relocate_eq_of_inFile {f g : Location → Location} {file : String}
    (hfg : ∀ l : Location, l.file = file → f l = g l) {s : Statement} (hs : s.relocate (Location.inFile file) = s) :
    s.relocate f = s.relocate g := by
  rw [← hs, Statement.relocate_relocate, Statement.relocate_relocate]
  congr 1
  funext l
  exact hfg _ rfl

section

variable {env : Surroundings} (hinput : env.tree.isFile (Path.ofString inputName) ≠ .ok true)

include hinput

/-- Where no file has the name of the input, none is included under that name. -/
theorem written_ne_inputName {file path : String} {r : Path} {found : Place × List UInt8}
    (h : sought? env file path = .ok (some (r, found))) : r.written ≠ inputName := by
  intro hname
  obtain ⟨hfind, x, htarget⟩ := sought?_eq_some.1 h
  rw [← hname, (FileTree.find?_wellFormed hfind).ofString_written] at hinput
  exact hinput (FileTree.isFile_eq_true.2 ⟨_, _, _, htarget⟩)

/-- Statements of other files than the input stay where they are. -/
theorem Compose.relocate_downIn (n : Nat) {active : List Place} {file : String} {is : List Grammar.Item}
    {parts : List Part} (h : Compose env active file is parts) (hfile : file ≠ inputName)
    (his : is.map (Grammar.Item.relocate (Location.inFile file)) = is) :
    (splice parts).map (Statement.relocate (Location.downIn inputName n)) = splice parts := by
  induction h with
  | nil => rfl
  | statement _ ih =>
    obtain ⟨hi, hrest⟩ := List.cons.inj his
    have hs := Grammar.Item.statement.inj hi
    rw [splice_own, List.map_cons, ih hfile hrest, relocate_eq_of_inFile (fun l hl => ?_) hs, hs]
    cases hl
    exact if_neg hfile
  | inclusion hsought _ _ hfalls _ _ ihinner ih =>
    have hinner := ihinner (written_ne_inputName hinput hsought) hfalls.relocate_inFile
    rw [splice_included, List.map_append, hinner, ih hfile (List.cons.inj his).2]

/-- If the input stands further down, the statements that are written in it do. -/
theorem Compose.splice_relocateOwn (n : Nat) {active : List Place} {is : List Grammar.Item} {parts : List Part}
    (h : Compose env active inputName is parts)
    (his : is.map (Grammar.Item.relocate (Location.inFile inputName)) = is) :
    splice (parts.map (Part.relocateOwn (Location.down n))) =
      (splice parts).map (Statement.relocate (Location.downIn inputName n)) := by
  induction is generalizing parts with
  | nil =>
    cases h
    rfl
  | cons i is ih =>
    obtain ⟨hi, hrest⟩ := List.cons.inj his
    cases h with
    | statement h =>
      have hs := Grammar.Item.statement.inj hi
      have hdown := relocate_eq_of_inFile (g := Location.downIn inputName n) (fun l hl => (if_pos hl).symm) hs
      rw [List.map_cons, Part.relocateOwn, splice_own, splice_own, List.map_cons, ih h hrest, hdown]
    | inclusion hsought _ _ hfalls hinner h =>
      have hstays := hinner.relocate_downIn hinput n (written_ne_inputName hinput hsought) hfalls.relocate_inFile
      rw [List.map_cons, Part.relocateOwn, splice_included, splice_included, List.map_append, hstays, ih h hrest]

end

end Unit

/-! ## The splice -/

theorem FileTree.target_of_readBytes {tree : FileTree} {r : Path} {content : List UInt8}
    (h : tree.readBytes r = .ok content) : ∃ place x, tree.target r = .file place content x := by
  unfold readBytes at h
  split at h
  · cases h
    exact ⟨_, _, ‹_›⟩
  all_goals cases h

/-- A text with an inclusion on a line of its own is read with nothing recorded if the text before it, the file and the
text after it are. Its statements are those of the text before, those of the file, and those of the text after; of the
last, the statements of the text itself stand so many lines further down, and those of files it includes stay. Where no
file has the name of the input, these are the statements that are written in the input. -/
theorem Program.read_inclusion {env : Surroundings} {a b path text : String} {r : Path} {content : List UInt8}
    {pa pb pf : Program} {ja ka jb kb jf kf : Journal} (hpath : IsPlainPath path)
    (hfind : env.tree.find? path inputName env.searchPaths = .ok (some r)) (hcontent : env.tree.readBytes r = .ok content)
    (htext : FileTree.textOf content = .ok text)
    (ha : Program.read env inputName a ja = .ok pa ka) (hka : ka.diagnostics.entries = ja.diagnostics.entries)
    (hb : Program.read env inputName b jb = .ok pb kb) (hkb : kb.diagnostics.entries = jb.diagnostics.entries)
    (hf : Program.read env r.written text jf = .ok pf kf) (hkf : kf.diagnostics.entries = jf.diagnostics.entries) :
    let before := a ++ "\n" ++ inclusionLine path ++ "\n"
    let lines := before.toList.count '\n'
    ∃ parts, Unit.ConsistsOf env [] inputName b parts ∧ pb.statements = Unit.splice parts ∧
      let below := Unit.splice (parts.map (Unit.Part.relocateOwn (Location.down lines)))
      (∀ j, ∃ k, Program.read env inputName (before ++ b) j =
          .ok ⟨pa.statements ++ pf.statements ++ below, inputName⟩ k ∧ k.diagnostics = j.diagnostics) ∧
        (env.tree.isFile (Path.ofString inputName) ≠ .ok true →
          below = pb.statements.map (Statement.relocate (Location.downIn inputName lines))) := by
  intro before lines
  have hinitial := Unit.initiallyActive_input env
  obtain ⟨place, x, htarget⟩ := FileTree.target_of_readBytes hcontent
  obtain ⟨_, partsA, hactive, hpartsA, rfl⟩ := consistsOf_of_read ha hka
  obtain rfl := Except.ok.inj (hinitial.symm.trans hactive)
  obtain ⟨_, partsB, hactive', hpartsB, rfl⟩ := consistsOf_of_read hb hkb
  obtain rfl := Except.ok.inj (hinitial.symm.trans hactive')
  obtain ⟨_, partsF, hactive'', hpartsF, rfl⟩ := consistsOf_of_read hf hkf
  have hinner := hpartsF.of_initial (FileTree.find?_wellFormed hfind) htarget htext hactive''
  have hsought := Unit.sought?_eq_some.2 ⟨hfind, x, htarget⟩
  have hline := Unit.inclusionLine_consistsOf hpath hsought List.not_mem_nil htext hinner
  have hwhole := (hpartsA.append hline).append hpartsB
  refine ⟨partsB, hpartsB, rfl, ?_, ?_⟩
  · have hread := read_of_consistsOf hinitial hwhole
    intro j
    obtain ⟨k, hk, hsame⟩ := hread j
    refine ⟨k, ?_, hsame⟩
    have hincluded : Unit.splice ([.included (Unit.splice partsF)].map (Unit.Part.relocateOwn
        (Location.down ((a ++ "\n").toList.count '\n')))) = Unit.splice partsF := by
      rw [List.map_singleton, Unit.Part.relocateOwn, Unit.splice_included]
      exact List.append_nil _
    rw [hk, Unit.splice_append, Unit.splice_append, hincluded]
  · intro hinput
    obtain ⟨is, hfalls, hparts⟩ := hpartsB
    exact hparts.splice_relocateOwn hinput lines hfalls.relocate_inFile

/-- A file that is included twice, first behind an initializer. -/
theorem Program.read_inclusion_again :
    let env : Surroundings := ⟨{ entries := [(["f.avm"], .file [97, 100, 100] false)] }, []⟩
    let a := "let n byte = 2"
    let b := inclusionLine "f.avm" ++ "\n" ++ "sub"
    let before := a ++ "\n" ++ inclusionLine "f.avm" ++ "\n"
    let lines := before.toList.count '\n'
    IsPlainPath "f.avm" ∧ env.tree.find? "f.avm" inputName env.searchPaths = .ok (some ⟨"", ["f.avm"]⟩) ∧
      env.tree.readBytes ⟨"", ["f.avm"]⟩ = .ok [97, 100, 100] ∧ FileTree.textOf [97, 100, 100] = .ok "add" ∧
      ∃ pa pb pf ka kb kf, Program.read env inputName a {} = .ok pa ka ∧ ka.diagnostics.entries = [] ∧
        Program.read env inputName b {} = .ok pb kb ∧ kb.diagnostics.entries = [] ∧
        Program.read env (Path.written ⟨"", ["f.avm"]⟩) "add" {} = .ok pf kf ∧ kf.diagnostics.entries = [] ∧
        ∃ parts, Unit.ConsistsOf env [] inputName b parts ∧ pb.statements = Unit.splice parts ∧
          let below := Unit.splice (parts.map (Unit.Part.relocateOwn (Location.down lines)))
          (∀ j, ∃ k, Program.read env inputName (before ++ b) j =
              .ok ⟨pa.statements ++ pf.statements ++ below, inputName⟩ k ∧ k.diagnostics = j.diagnostics) ∧
            (env.tree.isFile (Path.ofString inputName) ≠ .ok true →
              below = pb.statements.map (Statement.relocate (Location.downIn inputName lines))) := by
  intro env a b before lines
  have hpath : IsPlainPath "f.avm" := by simp [IsPlainPath]
  have hfind : env.tree.find? "f.avm" inputName env.searchPaths = .ok (some ⟨"", ["f.avm"]⟩) := by decide +kernel
  have hcontent : env.tree.readBytes ⟨"", ["f.avm"]⟩ = .ok [97, 100, 100] := by decide +kernel
  have htext : FileTree.textOf [97, 100, 100] = .ok "add" := by decide +kernel
  have hnullary : ∀ {name : String} {m : Mnemonic}, InstructionSet.byName? name = some m → m.takesArgument = false →
      ∀ file, Unit.CanStart env file →
        ∃ ss k, Program.read env file name {} = .ok ⟨ss, file⟩ k ∧ k.diagnostics.entries = [] := by
    intro name m hm harity file hstart
    have hyields : Statement.YieldAll [.instruction none name none] [.name name] :=
      ⟨_, _, ⟨⟨m, hm, harity⟩, rfl⟩, rfl, rfl⟩
    have hspells : Spells name.toList [.name name] := by
      simpa [Terminal.spelling, Terminal.name] using
        Spells.cons (Terminal.isLexeme_mnemonic hm) Lexeme.delimited_nil .nil
    obtain ⟨ss, -, hread⟩ := Program.read_of_yieldAll hstart hspells hyields
    exact ⟨ss, _, hread {}, rfl⟩
  let spelled : List (Terminal × String) :=
    [(.keyword .declareVariable, "let"), (.name "n", "n"), (.type .byte, "byte"), (.equals, "="),
      (⟨.integer .decimal, "2"⟩, "2")]
  have hspells : Spells a.toList (spelled.map Prod.fst) :=
    spells_intercalate Prod.fst Prod.snd spelled (by decide +kernel)
  have hyields : Statement.YieldAll [.region none "n" .byte [.integer none 2]] (spelled.map Prod.fst) := by
    have htwo : Terminal.Denotes ⟨.integer .decimal, "2"⟩ 2 := ⟨by decide +kernel, by decide, by decide⟩
    have hname : InstructionSet.isMnemonic "n" = false := by decide +kernel
    exact ⟨_, _, ⟨_, hname, ⟨_, htwo, rfl⟩, rfl⟩, rfl, rfl⟩
  obtain ⟨ssA, -, hread⟩ := Program.read_of_yieldAll (Unit.canStart_input env) hspells hyields
  have hadd : InstructionSet.byName? "add" = some ⟨"add", 0x20, false⟩ := by decide +kernel
  have hsub : InstructionSet.byName? "sub" = some ⟨"sub", 0x21, false⟩ := by decide +kernel
  obtain ⟨ssF, kf, hf, hkf⟩ := hnullary hadd rfl (Path.written ⟨"", ["f.avm"]⟩) ⟨[⟨["f.avm"], none⟩], rfl⟩
  obtain ⟨ss, k, hlast, hk⟩ := hnullary hsub rfl inputName (Unit.canStart_input env)
  -- The text behind includes the file once more.
  obtain ⟨_, partsF, hactive, hpartsF, -⟩ := consistsOf_of_read hf hkf
  obtain ⟨_, parts, hactive', hparts, -⟩ := consistsOf_of_read hlast hk
  obtain rfl := Except.ok.inj ((Unit.initiallyActive_input env).symm.trans hactive')
  have hinner := hpartsF.of_initial (FileTree.find?_wellFormed hfind) rfl htext hactive
  have hsought := Unit.sought?_eq_some.2 ⟨hfind, false, rfl⟩
  have hline := Unit.inclusionLine_consistsOf hpath hsought List.not_mem_nil htext hinner
  obtain ⟨kb, hb, hkb⟩ := read_of_consistsOf (Unit.initiallyActive_input env) (hline.append hparts) {}
  have hkb' : kb.diagnostics.entries = [] := by rw [hkb]
  exact ⟨hpath, hfind, hcontent, htext, _, _, _, _, _, _, hread {}, rfl, hb, hkb', hf, hkf,
    read_inclusion hpath hfind hcontent htext (hread {}) rfl hb hkb' hf hkf⟩

end AvmAssembler
