import AvmAssembler.Proofs.Assembly.Literal
import AvmAssembler.Proofs.Source.Completeness
import AvmAssembler.Proofs.Source.Quotation
import AvmAssembler.Proofs.Source.Separation

/-! # String literals

From the source to the memory: the lexemes of strings are the writings of their texts between quotes, wherever they
stand in a source, and as an initializer of bytes or characters a string is stored in UTF-8.
-/

namespace AvmAssembler

/-! ## Lexemes of strings -/

namespace Lexeme

variable {c : Char} {cs text written : List Char}

theorem scan_quotes (h : Quotes text written) (rest : List Char) :
    scan '"' (written ++ '"' :: rest) = ⟨.token .string text, '"' :: (written ++ ['"']), rest⟩ := by
  have hscan : scan '"' (written ++ '"' :: rest) = string (written ++ '"' :: rest) := rfl
  rw [hscan, string, stringBody_of_quotes h rest]

theorem quotes_of_scan (h : (scan c cs).content = .token .string text) :
    ∃ written, (scan c cs).raw = '"' :: (written ++ ['"']) ∧ Quotes text written := by
  obtain rfl : c = '"' := scan_starts h
  have hscan : scan '"' cs = string cs := rfl
  rw [hscan] at h ⊢
  simp only [string] at h ⊢
  split at h
  · rename_i inner hinner
    cases h
    obtain ⟨written, hraw, hquotes⟩ := quotes_of_stringBody hinner
    exact ⟨written, congrArg ('"' :: ·) hraw, hquotes⟩
  · cases h

end Lexeme

/-- The lexemes of a string are the writings of its text between quotes. -/
theorem Terminal.spelledBy_string_iff {s : String} {w : List Char} :
    (string s).SpelledBy w ↔ ∃ written, w = '"' :: (written ++ ['"']) ∧ Lexeme.Quotes s.toList written := by
  constructor
  · rintro ⟨c, cs, rfl, hscan⟩
    have hcontent : (Lexeme.scan c cs).content = .token .string s.toList := congrArg Lexeme.content hscan
    obtain ⟨written, hraw, hquotes⟩ := Lexeme.quotes_of_scan hcontent
    exact ⟨written, (congrArg Lexeme.raw hscan).symm.trans hraw, hquotes⟩
  · rintro ⟨written, rfl, hquotes⟩
    exact ⟨'"', written ++ ['"'], rfl, Lexeme.scan_quotes hquotes []⟩

section

variable {file : String} {text written : List Char}

theorem Terminal.spelledBy_of_quotes (h : Lexeme.Quotes text written) :
    (string (String.ofList text)).SpelledBy ('"' :: (written ++ ['"'])) :=
  spelledBy_string_iff.2 ⟨written, rfl, by rwa [String.toList_ofList]⟩

/-- A writing of a text between quotes is scanned as one string of this text. -/
theorem tokenize_of_quotes (h : Lexeme.Quotes text written) (file : String) :
    ∃ l l', tokenize file (String.ofList ('"' :: (written ++ ['"']))) =
      ([⟨.string, String.ofList text, l⟩], .complete l') := by
  obtain ⟨l', htokens⟩ := tokenize_of_spelledBy (Terminal.spelledBy_of_quotes h) file
  exact ⟨_, l', htokens⟩

/-- A writing of a text between quotes is read as the literal of this text. -/
theorem Expr.read_of_quotes (h : Lexeme.Quotes text written) :
    ∃ l, Expr.read (String.ofList ('"' :: (written ++ ['"']))) = .ok (.string (some l) (String.ofList text)) := by
  have hread := Expr.read_of_spelledBy (Terminal.spelledBy_of_quotes h) (by simp [Terminal.string]) rfl
  exact ⟨_, hread.trans (Grammar.atom_string rfl)⟩

theorem Cursor.exists_stepped_of_mem_steps {source : Source} {cursor : Cursor} {item : Scanned} {n : Nat}
    (h : item ∈ cursor.steps source n) : ∃ k, ((cursor.stepped source k).next source).1 = item := by
  induction n generalizing cursor with
  | zero => cases h
  | succ n ih =>
    rcases List.mem_cons.1 h with rfl | h
    · exact ⟨0, rfl⟩
    · obtain ⟨k, hk⟩ := ih h
      exact ⟨k + 1, hk⟩

/-- A string that a step through a source meets stands there as a writing of its text between quotes. -/
theorem Cursor.quotes_of_mem_steps {source : String} {n : Nat} {t : Token}
    (ht : .token t ∈ (ofText source).steps (.ofText file source) n) (hkind : t.kind = .string) :
    ∃ before written after : List Char, source.toList = before ++ ('"' :: (written ++ ['"']) ++ after) ∧
      t.Spans before ('"' :: (written ++ ['"'])) ∧ Lexeme.Quotes t.text.toList written := by
  obtain ⟨k, hk⟩ := exists_stepped_of_mem_steps ht
  obtain ⟨done, hstands⟩ := (stands_ofText source).stepped (.ofText file source) k
  obtain ⟨gap, slice, hahead, -, hspans, hspelled, -⟩ := next_spans hstands (Prod.ext hk rfl)
  have hterminal : t.terminal = Terminal.string t.text := by rw [Token.terminal, hkind, Terminal.string]
  rw [hterminal] at hspelled
  obtain ⟨written, rfl, hquotes⟩ := Terminal.spelledBy_string_iff.1 hspelled
  have hsource := hstands.text_eq
  rw [hahead, ← List.append_assoc] at hsource
  exact ⟨_, written, _, hsource, hspans, hquotes⟩

end

/-! ## Strings in memory -/

namespace Assembly

variable {pending : Pending} {type : ElementType} {l : Option Location} {a b c : Assembly}

theorem elements_bytes (hsize : type.size = 1) (l : Option Location) (bytes : List UInt8) (a : Assembly) :
    elements type l (bytes.map UInt8.toNat) a = .ok bytes a := by
  induction bytes with
  | nil => rfl
  | cons byte bytes ih =>
    rw [List.map_cons, elements, bind_of_ok (element_byte hsize l byte a), bind_of_ok ih]
    rfl

theorem initializersBytes_append {es fs : List Expr} {front back : List UInt8}
    (hes : initializersBytes pending type es a = .ok front b) (hfs : initializersBytes pending type fs b = .ok back c) :
    initializersBytes pending type (es ++ fs) a = .ok (front ++ back) c := by
  induction es generalizing a front with
  | nil =>
    cases hes
    exact hfs
  | cons e es ih =>
    obtain ⟨bytes, a', he, hmore⟩ := exists_of_bind_eq_ok hes
    obtain ⟨more, b', hmore, hpure⟩ := exists_of_bind_eq_ok hmore
    cases hpure
    rw [List.cons_append, initializersBytes, bind_of_ok he, bind_of_ok (ih hmore), List.append_assoc]
    rfl

/-- A string among the initializers of bytes or characters adds its UTF-8 form. -/
theorem initializersBytes_string (hsize : type.size = 1) {es fs : List Expr} {front back : List UInt8} (text : String)
    (hes : initializersBytes pending type es a = .ok front b) (hfs : initializersBytes pending type fs b = .ok back c) :
    initializersBytes pending type (es ++ .string l text :: fs) a =
      .ok (front ++ (Text.Utf8.encode text ++ back)) c := by
  refine initializersBytes_append hes ?_
  have hstring : initializerBytes pending type (.string l text) b = .ok (Text.Utf8.encode text) b :=
    elements_bytes hsize l (Text.Utf8.encode text) b
  rw [initializersBytes, bind_of_ok hstring, bind_of_ok hfs]
  rfl

end Assembly

/-! ## String literals -/

/-- Every writing of a text between quotes is scanned as one string of this text and read as the literal of it, and
every string that a step through a source meets stands there in such a writing of its text. Among the initializers of
bytes or characters, the literal adds the UTF-8 form of its text, without a fault and without a warning. -/
theorem stringLiteral_exact (file : String) :
    (∀ text written : List Char, Lexeme.Quotes text written →
      (∃ l l', tokenize file (String.ofList ('"' :: (written ++ ['"']))) =
        ([⟨.string, String.ofList text, l⟩], .complete l')) ∧
      ∃ l, Expr.read (String.ofList ('"' :: (written ++ ['"']))) = .ok (.string (some l) (String.ofList text))) ∧
    (∀ (source : String) (n : Nat) (t : Token),
      .token t ∈ (Cursor.ofText source).steps (.ofText file source) n → t.kind = .string →
        ∃ before written after : List Char, source.toList = before ++ ('"' :: (written ++ ['"']) ++ after) ∧
          t.Spans before ('"' :: (written ++ ['"'])) ∧ Lexeme.Quotes t.text.toList written) ∧
    (∀ (env : Surroundings) (pending : Pending) (l l' : Option Location) (name text : String) (type : ElementType)
      (es fs : List Expr) (front back : List UInt8) (a b c : Assembly), type = .byte ∨ type = .char →
        a.symbols.get? name = none → Assembly.initializersBytes pending type es a = .ok front b →
        Assembly.initializersBytes pending type fs b = .ok back c →
        let bytes := front ++ (text.toUTF8.data.toList ++ back)
        c.memory = a.memory ∧
          Assembly.process env pending (.region l name type (es ++ .string l' text :: fs)) a =
            .ok () (c.grow { entries := [(name, ⟨l, .region a.memory.length bytes.length⟩)], bytes := bytes })) := by
  refine ⟨fun text written hquotes => ⟨tokenize_of_quotes hquotes file, Expr.read_of_quotes hquotes⟩,
    fun source n t ht hkind => Cursor.quotes_of_mem_steps ht hkind, ?_⟩
  rintro env pending l l' name text type es fs front back a b c htype hfree hes hfs
  have hsize : type.size = 1 := by rcases htype with rfl | rfl <;> rfl
  have hbytes := Assembly.initializersBytes_string (l := l') hsize text hes hfs
  have hquiet := ((Assembly.initializersBytes_leads pending type _ a).at_ok hbytes).1
  exact ⟨hquiet.memory, Assembly.process_region hfree hbytes⟩

/-- A tab can stand for itself or be escaped, and a backslash in front of the closing quote has to be escaped; a string
is found behind a lone angle; the bytes of a string stand between those of the numbers around it. -/
theorem stringLiteral_exact_tab :
    (∃ l l', tokenize "" (String.ofList ('"' :: (['\\', 't', '\t', '#', '\\', '\\'] ++ ['"']))) =
      ([⟨.string, String.ofList ['\t', '\t', '#', '\\'], l⟩], .complete l')) ∧
    (∃ before written after : List Char,
      "< \"é\\n\" 1".toList = before ++ ('"' :: (written ++ ['"']) ++ after) ∧ Lexeme.Quotes "é\n".toList written) ∧
    ∃ l es a, Expr.unlocatedAll es = [.integer none 1, .string none "é", .integer none 2] ∧
      Assembly.process ⟨{}, []⟩ [] (.region l "x" .char es) {} = .ok () a ∧ a.memory = [1, 0xc3, 0xa9, 2] := by
  obtain ⟨hwriting, hsource, hmemory⟩ := stringLiteral_exact ""
  have hquotes : Lexeme.Quotes ['\t', '\t', '#', '\\'] ['\\', 't', '\t', '#', '\\', '\\'] :=
    .escape rfl (.raw (by decide) (by decide) (by decide) (.raw (by decide) (by decide) (by decide) (.escape rfl .nil)))
  have hmem : Scanned.token ⟨.string, "é\n", ⟨"", 1, 3, 5, "< \"é\\n\" 1"⟩⟩ ∈
      (Cursor.ofText "< \"é\\n\" 1").steps (.ofText "" "< \"é\\n\" 1") 2 := by
    decide +kernel
  obtain ⟨before, written, after, heq, -, hwritten⟩ := hsource _ 2 _ hmem rfl
  have hprocess := hmemory ⟨{}, []⟩ [] none none "x" "é" .char [.integer none 1] [.integer none 2] [1] [2] {} {} {}
    (.inr rfl) rfl rfl rfl
  exact ⟨(hwriting _ _ hquotes).1, ⟨before, written, after, heq, hwritten⟩, none, _, _, rfl, hprocess.2, rfl⟩

end AvmAssembler
