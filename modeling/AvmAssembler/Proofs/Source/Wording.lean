import AvmAssembler.Proofs.Assembly.Faults
import AvmAssembler.Proofs.Source.Relocation
import AvmAssembler.Proofs.Source.Terminal
import Mathlib.Data.List.Nodup

/-! # The wording of a stream of tokens

The wording of a stream is what is shown of its tokens and of its ending, apart from locations: the display names of
their kinds and their texts. It determines the stream up to locations, since display names tell kinds apart and messages
tell faults apart.
-/

namespace AvmAssembler

/-! ## Kinds and their names -/

namespace TokenKind

def all : List TokenKind :=
  [name, label, integer .decimal, integer .hexadecimal, integer .octal, integer .binary, float, character, string, comma,
    equals, openParen, closeParen, fill, keyword .declareVariable, keyword .declareConstant, keyword .inclusion,
    keyword .embedding, keyword .sizeof, type .byte, type .char, type .i16, type .i32, type .i64, type .f64,
    operator .add, operator .sub, operator .mul, operator .div, operator .mod, operator .pow, operator .conj,
    operator .disj, operator .shiftRight, operator .shiftLeft]

theorem mem_all (kind : TokenKind) : kind ∈ all := by
  cases kind with
  | integer radix => cases radix <;> decide
  | keyword k => cases k <;> decide
  | type t => cases t <;> decide
  | operator o => cases o <;> decide
  | _ => decide

theorem displayName_nodup : (all.map displayName).Nodup := by decide +kernel

theorem displayName_injective {kind kind' : TokenKind} (h : kind.displayName = kind'.displayName) : kind = kind' :=
  List.inj_on_of_nodup_map displayName_nodup kind.mem_all kind'.mem_all h

end TokenKind

/-! ## Faults and their messages -/

namespace LexicalFault

/-- The fault that is worded by some characters, told by their number and by characters at places where none is
quoted. -/
def ofWording (s : List Char) : LexicalFault :=
  let c := s.getD 22 ' '
  if s.length = 21 then if s.getD 9 ' ' = 'o' then missingDigits .octal else missingFraction
  else if s.length = 22 then missingDigits .binary
  else if s.length = 23 then
    if s.getD 9 ' ' = '\'' then loneAngle (s.getD 10 ' ')
    else if s.getD 9 ' ' = 'd' then missingDigits .decimal
    else emptyCharacter
  else if s.length = 24 then unexpectedCharacter c
  else if s.length = 27 then if s.getD 9 ' ' = 'h' then missingDigits .hexadecimal else unterminatedString
  else if s.length = 28 then if s.getD 2 ' ' = 't' then unterminatedEscape else unknownEscape (s.getD 26 ' ')
  else if s.length = 29 then missingLabelName
  else if s.length = 30 then unterminatedCharacter
  else if s.length = 38 then labelCharacter c
  else if s.length = 39 then wideCharacter
  else if s.length = 40 then if s.getD 28 ' ' = 'o' then numberCharacter c .octal else fractionCharacter c
  else if s.length = 41 then numberCharacter c .binary
  else if s.length = 42 then numberCharacter c .decimal
  else if s.length = 46 then numberCharacter c .hexadecimal
  else crowdedCharacter

theorem toList_toString (c : Char) : (toString c).toList = [c] := by
  change (String.singleton c).toList = [c]
  simp

theorem ofWording_message (fault : LexicalFault) : ofWording fault.message.toList = fault := by
  cases fault with
  | numberCharacter c radix =>
    unfold message
    simp only [toString_text, String.toList_append, toList_toString]
    cases radix <;> rfl
  | missingDigits radix => cases radix <;> decide +kernel
  | unexpectedCharacter c | loneAngle c | labelCharacter c | fractionCharacter c | unknownEscape c =>
    unfold message
    simp only [toString_text, String.toList_append, toList_toString]
    rfl
  | _ => decide +kernel

theorem message_injective {fault fault' : LexicalFault} (h : fault.message = fault'.message) : fault = fault' := by
  rw [← ofWording_message fault, h, ofWording_message]

end LexicalFault

/-! ## Streams -/

/-- A location of which only the file is kept. -/
def Location.fileOnly (l : Location) : Location :=
  { file := l.file, line := 1, column := 1 }

/-- What is shown of a stream of tokens apart from locations: the names of the kinds and the texts, up to and with the
ending. -/
def wording (stream : List Token × Ending) : List (String × String) :=
  (stream.1.map Scanned.token ++ [Scanned.ending stream.2]).map fun s => (s.kindName, s.text)

/-- The wording of text that spells terminals is theirs. -/
theorem wording_of_spells {text : String} {ts : List Terminal} (h : Spells text.toList ts) (file : String) :
    wording (tokenize file text) = ts.map (fun t => (t.kind.displayName, t.text)) ++ [("EOF", "")] := by
  obtain ⟨tokens, l, heq, rfl⟩ := tokenize_of_spells h file
  rw [heq, wording, List.map_append, List.map_map, List.map_map]
  rfl

def InFile (file : String) (stream : List Token × Ending) : Prop :=
  (∀ t ∈ stream.1, t.location.file = file) ∧ stream.2.location.file = file

theorem Cursor.next_file {source : Source} {cursor stop : Cursor} {s : Scanned}
    (h : cursor.next source = (s, stop)) : s.location.file = source.file := by
  unfold next at h
  dsimp only at h
  split at h
  · cases h
    rfl
  · split at h
    · cases h
      rfl
    · cases h
      rfl

theorem Cursor.tokens_inFile (source : Source) (cursor : Cursor) : InFile source.file (cursor.tokens source) := by
  rw [tokens]
  split
  · rename_i t stop h
    obtain ⟨htokens, hending⟩ := tokens_inFile source stop
    refine ⟨fun u hu => ?_, hending⟩
    rcases List.mem_cons.1 hu with rfl | hu
    · exact next_file h
    · exact htokens u hu
  · rename_i ending stop h
    exact ⟨by simp, next_file h⟩
termination_by cursor.rest.length
decreasing_by exact next_token_rest_length_lt ‹_›

theorem tokenize_inFile (file text : String) : InFile file (tokenize file text) :=
  Cursor.tokens_inFile _ _

/-- Tokens of a file with the same wording are the same but for the places in the file. -/
theorem Token.relocate_fileOnly_eq {t t' : Token} (hfile : t.location.file = t'.location.file)
    (hwording : (t.kind.displayName, t.text) = (t'.kind.displayName, t'.text)) :
    t.relocate Location.fileOnly = t'.relocate Location.fileOnly := by
  obtain ⟨hkind, htext⟩ := Prod.mk.inj hwording
  rw [Token.relocate, Token.relocate, Location.fileOnly, Location.fileOnly, hfile, htext,
    TokenKind.displayName_injective hkind]

theorem map_relocate_fileOnly_eq {file : String} {tokens tokens' : List Token}
    (hfile : ∀ t ∈ tokens, t.location.file = file) (hfile' : ∀ t ∈ tokens', t.location.file = file)
    (h : tokens.map (fun t => (t.kind.displayName, t.text)) = tokens'.map fun t => (t.kind.displayName, t.text)) :
    tokens.map (Token.relocate Location.fileOnly) = tokens'.map (Token.relocate Location.fileOnly) := by
  induction tokens generalizing tokens' with
  | nil =>
    obtain rfl : tokens' = [] := by simpa using h.symm
    rfl
  | cons t tokens ih =>
    cases tokens' with
    | nil => cases h
    | cons t' tokens' =>
      obtain ⟨hwording, htail⟩ := List.cons.inj h
      obtain ⟨hplace, hplaces⟩ := List.forall_mem_cons.1 hfile
      obtain ⟨hplace', hplaces'⟩ := List.forall_mem_cons.1 hfile'
      rw [List.map_cons, List.map_cons, Token.relocate_fileOnly_eq (hplace.trans hplace'.symm) hwording,
        ih hplaces hplaces' htail]

/-- Endings in a file with the same wording are the same but for the places in the file. -/
theorem Ending.relocate_fileOnly_eq {ending ending' : Ending} (hfile : ending.location.file = ending'.location.file)
    (hkind : (Scanned.ending ending).kindName = (Scanned.ending ending').kindName)
    (htext : (Scanned.ending ending).text = (Scanned.ending ending').text) :
    ending.relocate Location.fileOnly = ending'.relocate Location.fileOnly := by
  have hplace : ending.location.fileOnly = ending'.location.fileOnly := by
    rw [Location.fileOnly, Location.fileOnly, hfile]
  cases ending with
  | complete l =>
    cases ending' with
    | complete l' => exact congrArg Ending.complete hplace
    | malformed fault' l' => simp [Scanned.kindName] at hkind
  | malformed fault l =>
    cases ending' with
    | complete l' => simp [Scanned.kindName] at hkind
    | malformed fault' l' =>
      obtain rfl : fault = fault' := LexicalFault.message_injective htext
      exact congrArg (Ending.malformed fault) hplace

/-- Streams of a file with the same wording are the same but for the places in the file. -/
theorem relocate_fileOnly_of_wording {file : String} {stream stream' : List Token × Ending} (hfile : InFile file stream)
    (hfile' : InFile file stream') (h : wording stream = wording stream') :
    stream.1.map (Token.relocate Location.fileOnly) = stream'.1.map (Token.relocate Location.fileOnly) ∧
      stream.2.relocate Location.fileOnly = stream'.2.relocate Location.fileOnly := by
  simp only [wording, List.map_append, List.map_map, List.map_singleton] at h
  obtain ⟨htokens, hending⟩ := List.append_inj' h rfl
  obtain ⟨hkind, htext⟩ := Prod.mk.inj (List.cons.inj hending).1
  exact ⟨map_relocate_fileOnly_eq hfile.1 hfile'.1 htokens,
    Ending.relocate_fileOnly_eq (hfile.2.trans hfile'.2.symm) hkind htext⟩

end AvmAssembler
