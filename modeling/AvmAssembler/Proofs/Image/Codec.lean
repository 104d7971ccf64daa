import Mathlib.Tactic.NormNum
import Mathlib.Tactic.Ring
import AvmAssembler.Image.Storage
import AvmAssembler.Proofs.Files.Overwriting
import AvmAssembler.Proofs.Outcome

/-! # Decoding what was encoded

An image has a binary form exactly when its numbers fit their fields. The binary form determines the image: whatever the
memory contains, decoding gives the image back, with or without the interpreter line. The pieces that go to a file one
by one are the binary form.
-/

namespace AvmAssembler

/-! ## Numbers in fields -/

theorem foldl_bigEndian (n value start : Nat) :
    (bigEndian n value).foldl (fun acc b => acc * 256 + b.toNat) start = start * 256 ^ n + value % 256 ^ n := by
  induction n generalizing start with
  | zero => simp [bigEndian, Nat.mod_one]
  | succ n ih =>
    have hbyte : (UInt8.ofNat (value / 256 ^ n)).toNat = value / 256 ^ n % 256 := by simp
    calc (bigEndian (n + 1) value).foldl (fun acc b => acc * 256 + b.toNat) start
        = (bigEndian n value).foldl (fun acc b => acc * 256 + b.toNat)
            (start * 256 + (UInt8.ofNat (value / 256 ^ n)).toNat) := rfl
      _ = (start * 256 + value / 256 ^ n % 256) * 256 ^ n + value % 256 ^ n := by rw [ih, hbyte]
      _ = start * 256 ^ (n + 1) + (value % 256 ^ n + 256 ^ n * (value / 256 ^ n % 256)) := by
        rw [Nat.pow_succ]
        ring
      _ = start * 256 ^ (n + 1) + value % 256 ^ (n + 1) := by rw [Nat.mod_pow_succ]

theorem ofBigEndian_bigEndian (n value : Nat) : ofBigEndian (bigEndian n value) = value % 256 ^ n := by
  simpa [ofBigEndian] using foldl_bigEndian n value 0

section Field

variable {n : Nat} {v : Int} {bytes : List UInt8}

theorem field_isOk (h : 0 ≤ v) (hlt : v < (256 : Int) ^ n) : ∃ bytes, field n v = .ok bytes := by
  have hlt' : v < Nat.pow 256 n := by simpa using hlt
  exact ⟨_, if_pos ⟨h, hlt'⟩⟩

theorem word_isOk (h : 0 ≤ v) (hlt : v < 2 ^ 64) : ∃ bytes, field 8 v = .ok bytes := by
  have hwidth : (2 : Int) ^ 64 = 256 ^ 8 := by norm_num
  exact field_isOk h (hwidth ▸ hlt)

theorem length_of_field (h : field n v = .ok bytes) : bytes.length = n := by
  unfold field at h
  split at h
  · cases h
    exact bigEndian_length n _
  · cases h

theorem ofBigEndian_of_field (h : field n v = .ok bytes) : (ofBigEndian bytes : Int) = v := by
  unfold field at h
  split at h
  · rename_i hv
    cases h
    obtain ⟨hnonneg, hlt⟩ := hv
    have hsmall : v.toNat < 256 ^ n := by
      have : v < ((256 ^ n : Nat) : Int) := hlt
      omega
    rw [ofBigEndian_bigEndian, Nat.mod_eq_of_lt hsmall]
    exact Int.toNat_of_nonneg hnonneg
  · cases h

end Field

namespace Image

theorem numberAt_field {n : Nat} {v : Int} {bytes : List UInt8} (h : field n v = .ok bytes) (offset : Nat)
    (front rest : List UInt8) (hfront : front.length = offset) :
    (numberAt (front ++ (bytes ++ rest)) offset n : Int) = v := by
  subst hfront
  rw [numberAt, List.drop_left, List.take_left' (length_of_field h)]
  exact ofBigEndian_of_field h

end Image

/-! ## Images that have a binary form -/

/-- The opcode is a byte and the argument a word. -/
structure Record.Encodable (r : Record) : Prop where
  opcode_nonneg : 0 ≤ r.opcode
  opcode_lt : r.opcode < 256
  argument_nonneg : 0 ≤ r.argument
  argument_lt : r.argument < 2 ^ 64

structure Image.Encodable (image : Image) : Prop where
  version : ∀ v ∈ [image.version.major, image.version.minor, image.version.patch], 0 ≤ v ∧ v < 256
  records : ∀ r ∈ image.records, r.Encodable
  entry_nonneg : 0 ≤ image.entryPoint
  entry_lt : image.entryPoint < 2 ^ 64
  records_lt : image.records.length < 2 ^ 64
  memory_lt : image.memory.length < 2 ^ 64

instance (r : Record) : Decidable r.Encodable :=
  decidable_of_iff (0 ≤ r.opcode ∧ r.opcode < 256 ∧ 0 ≤ r.argument ∧ r.argument < 2 ^ 64)
    ⟨fun ⟨h₁, h₂, h₃, h₄⟩ => ⟨h₁, h₂, h₃, h₄⟩, fun ⟨h₁, h₂, h₃, h₄⟩ => ⟨h₁, h₂, h₃, h₄⟩⟩

theorem Record.encode_eq_ok {r : Record} {bytes : List UInt8} :
    r.encode = .ok bytes ↔
      ∃ opcode argument, field 1 r.opcode = .ok opcode ∧ field 8 r.argument = .ok argument ∧
        bytes = opcode ++ argument := by
  simp only [Record.encode, bind_eq_ok]
  constructor
  · rintro ⟨opcode, hopcode, argument, hargument, h⟩
    cases h
    exact ⟨opcode, argument, hopcode, hargument, rfl⟩
  · rintro ⟨opcode, argument, hopcode, hargument, rfl⟩
    exact ⟨opcode, hopcode, argument, hargument, rfl⟩

theorem Record.Encodable.encode {r : Record} (h : r.Encodable) : ∃ bytes, r.encode = .ok bytes := by
  obtain ⟨opcode, hopcode⟩ := field_isOk (n := 1) h.opcode_nonneg (by simpa using h.opcode_lt)
  obtain ⟨argument, hargument⟩ := word_isOk h.argument_nonneg h.argument_lt
  exact ⟨opcode ++ argument, Record.encode_eq_ok.2 ⟨opcode, argument, hopcode, hargument, rfl⟩⟩

namespace Image

variable {image : Image} {executable : Bool} {bytes : List UInt8}

/-- A header is put together from the magic number and its fields. -/
theorem header_eq_ok :
    image.header = .ok bytes ↔
      ∃ major minor patch count size entry, field 1 image.version.major = .ok major ∧
        field 1 image.version.minor = .ok minor ∧ field 1 image.version.patch = .ok patch ∧
        field 8 image.records.length = .ok count ∧ field 8 image.memory.length = .ok size ∧
        field 8 image.entryPoint = .ok entry ∧
        bytes = magic ++ (major ++ (minor ++ (patch ++ (count ++ (size ++ entry))))) := by
  simp only [header, bind_eq_ok, List.append_assoc]
  constructor
  · rintro ⟨major, hmajor, minor, hminor, patch, hpatch, count, hcount, size, hsize, entry, hentry, h⟩
    cases h
    exact ⟨major, minor, patch, count, size, entry, hmajor, hminor, hpatch, hcount, hsize, hentry, rfl⟩
  · rintro ⟨major, minor, patch, count, size, entry, hmajor, hminor, hpatch, hcount, hsize, hentry, rfl⟩
    exact ⟨major, hmajor, minor, hminor, patch, hpatch, count, hcount, size, hsize, entry, hentry, rfl⟩

theorem Encodable.header (h : image.Encodable) : ∃ bytes, image.header = .ok bytes := by
  have byte : ∀ v ∈ [image.version.major, image.version.minor, image.version.patch], ∃ bytes, field 1 v = .ok bytes :=
    fun v hv => field_isOk (h.version v hv).1 (by simpa using (h.version v hv).2)
  obtain ⟨major, hmajor⟩ := byte image.version.major (by simp)
  obtain ⟨minor, hminor⟩ := byte image.version.minor (by simp)
  obtain ⟨patch, hpatch⟩ := byte image.version.patch (by simp)
  obtain ⟨count, hcount⟩ := word_isOk (Int.natCast_nonneg image.records.length) (by exact_mod_cast h.records_lt)
  obtain ⟨size, hsize⟩ := word_isOk (Int.natCast_nonneg image.memory.length) (by exact_mod_cast h.memory_lt)
  obtain ⟨entry, hentry⟩ := word_isOk h.entry_nonneg h.entry_lt
  exact ⟨_, header_eq_ok.2 ⟨major, minor, patch, count, size, entry, hmajor, hminor, hpatch, hcount, hsize, hentry, rfl⟩⟩

theorem encodeRecords_cons_eq_ok {r : Record} {rest : List Record} :
    encodeRecords (r :: rest) = .ok bytes ↔
      ∃ one more, r.encode = .ok one ∧ encodeRecords rest = .ok more ∧ bytes = one ++ more := by
  simp only [encodeRecords, bind_eq_ok]
  constructor
  · rintro ⟨one, hone, more, hmore, h⟩
    cases h
    exact ⟨one, more, hone, hmore, rfl⟩
  · rintro ⟨one, more, hone, hmore, rfl⟩
    exact ⟨one, hone, more, hmore, rfl⟩

/-- The binary form is put together from the header, the memory and the records. -/
theorem encode_eq_ok :
    image.encode executable = .ok bytes ↔
      ∃ header records, image.header = .ok header ∧ encodeRecords image.records = .ok records ∧
        bytes = (if executable then interpreterLine else []) ++ header ++ image.memory ++ records := by
  simp only [encode, bind_eq_ok]
  constructor
  · rintro ⟨header, hheader, records, hrecords, h⟩
    cases h
    exact ⟨header, records, hheader, hrecords, rfl⟩
  · rintro ⟨header, records, hheader, hrecords, rfl⟩
    exact ⟨header, hheader, records, hrecords, rfl⟩

theorem encodeRecords_isOk {records : List Record} (h : ∀ r ∈ records, r.Encodable) :
    ∃ bytes, encodeRecords records = .ok bytes := by
  induction records with
  | nil => exact ⟨[], rfl⟩
  | cons r rest ih =>
    obtain ⟨bytes, hbytes⟩ := (h r (by simp)).encode
    obtain ⟨more, hmore⟩ := ih fun r' hr' => h r' (by simp [hr'])
    exact ⟨bytes ++ more, encodeRecords_cons_eq_ok.2 ⟨bytes, more, hbytes, hmore, rfl⟩⟩

theorem Encodable.encode (h : image.Encodable) (executable : Bool) : ∃ bytes, image.encode executable = .ok bytes := by
  obtain ⟨header, hheader⟩ := h.header
  obtain ⟨records, hrecords⟩ := encodeRecords_isOk h.records
  exact ⟨_, encode_eq_ok.2 ⟨header, records, hheader, hrecords, rfl⟩⟩

/-! ## Decoding -/

theorem length_of_encode {r : Record} (h : r.encode = .ok bytes) : bytes.length = Record.byteLength := by
  obtain ⟨opcode, argument, hopcode, hargument, rfl⟩ := Record.encode_eq_ok.1 h
  rw [List.length_append, length_of_field hopcode, length_of_field hargument]
  rfl

theorem length_of_encodeRecords {records : List Record} (h : encodeRecords records = .ok bytes) :
    bytes.length = records.length * Record.byteLength := by
  induction records generalizing bytes with
  | nil =>
    cases h
    simp
  | cons r rest ih =>
    obtain ⟨one, more, hone, hmore, rfl⟩ := encodeRecords_cons_eq_ok.1 h
    rw [List.length_append, length_of_encode hone, ih hmore, List.length_cons]
    ring

/-- Records are read back one by one; what follows the last one does not matter. -/
theorem decodeRecords_encodeRecords {records : List Record} (h : encodeRecords records = .ok bytes)
    (rest : List UInt8) : decodeRecords records.length (bytes ++ rest) = records := by
  induction records generalizing bytes with
  | nil => rfl
  | cons r records ih =>
    obtain ⟨one, more, hone, hmore, rfl⟩ := encodeRecords_cons_eq_ok.1 h
    have hlength := length_of_encode hone
    obtain ⟨opcode, argument, hopcode, hargument, rfl⟩ := Record.encode_eq_ok.1 hone
    have hop : (numberAt (opcode ++ argument ++ more ++ rest) 0 1 : Int) = r.opcode := by
      simpa using numberAt_field hopcode 0 [] (argument ++ (more ++ rest)) rfl
    have harg : (numberAt (opcode ++ argument ++ more ++ rest) 1 8 : Int) = r.argument := by
      simpa using numberAt_field hargument 1 opcode (more ++ rest) (length_of_field hopcode)
    have hdrop : (opcode ++ argument ++ more ++ rest).drop Record.byteLength = more ++ rest := by
      rw [List.append_assoc (opcode ++ argument), ← hlength, List.drop_left]
    rw [List.length_cons, decodeRecords, hop, harg, hdrop, ih hmore]

theorem length_of_header (h : image.header = .ok bytes) : bytes.length = headerLength := by
  obtain ⟨major, minor, patch, count, size, entry, hmajor, hminor, hpatch, hcount, hsize, hentry, rfl⟩ :=
    header_eq_ok.1 h
  simp only [List.length_append, length_of_field hmajor, length_of_field hminor, length_of_field hpatch,
    length_of_field hcount, length_of_field hsize, length_of_field hentry]
  rfl

theorem skipInterpreterLine_interpreterLine (rest : List UInt8) :
    skipInterpreterLine (interpreterLine ++ rest) = .ok rest := by
  have hline : interpreterLine =
      [0x23, 0x21, 0x2f, 0x75, 0x73, 0x72, 0x2f, 0x62, 0x69, 0x6e, 0x2f, 0x61, 0x76, 0x6d, 0x0a] := by decide +kernel
  rw [hline]
  simp [skipInterpreterLine]

theorem skipInterpreterLine_magic (rest : List UInt8) : skipInterpreterLine (magic ++ rest) = .ok (magic ++ rest) := rfl

theorem decode_of_skipInterpreterLine {other : List UInt8} (h : skipInterpreterLine bytes = skipInterpreterLine other) :
    decode bytes = decode other := by
  rw [decode, decode, h]

/-- A header starts like no interpreter line. -/
theorem header_start (h : image.header = .ok bytes) (rest : List UInt8) :
    (bytes ++ rest).take 3 = magic ∧ skipInterpreterLine (bytes ++ rest) = .ok (bytes ++ rest) := by
  obtain ⟨major, minor, patch, count, size, entry, -, -, -, -, -, -, rfl⟩ := header_eq_ok.1 h
  rw [List.append_assoc]
  exact ⟨rfl, skipInterpreterLine_magic _⟩

theorem numberAt_header (h : image.header = .ok bytes) (rest : List UInt8) :
    (⟨numberAt (bytes ++ rest) 3 1, numberAt (bytes ++ rest) 4 1, numberAt (bytes ++ rest) 5 1⟩ : Version) =
        image.version ∧
      numberAt (bytes ++ rest) 6 8 = image.records.length ∧ numberAt (bytes ++ rest) 14 8 = image.memory.length ∧
      (numberAt (bytes ++ rest) 22 8 : Int) = image.entryPoint := by
  obtain ⟨major, minor, patch, count, size, entry, hmajor, hminor, hpatch, hcount, hsize, hentry, hfields⟩ :=
    header_eq_ok.1 h
  have hmagic : magic.length = 3 := rfl
  have hlengths := And.intro hmagic <| And.intro (length_of_field hmajor) <| And.intro (length_of_field hminor) <|
    And.intro (length_of_field hpatch) <| And.intro (length_of_field hcount) (length_of_field hsize)
  have h₃ := numberAt_field hmajor 3 magic (minor ++ patch ++ count ++ size ++ entry ++ rest) (by simp [hlengths])
  have h₄ := numberAt_field hminor 4 (magic ++ major) (patch ++ count ++ size ++ entry ++ rest) (by simp [hlengths])
  have h₅ := numberAt_field hpatch 5 (magic ++ major ++ minor) (count ++ size ++ entry ++ rest) (by simp [hlengths])
  have h₆ := numberAt_field hcount 6 (magic ++ major ++ minor ++ patch) (size ++ entry ++ rest) (by simp [hlengths])
  have h₁₄ := numberAt_field hsize 14 (magic ++ major ++ minor ++ patch ++ count) (entry ++ rest) (by simp [hlengths])
  have h₂₂ := numberAt_field hentry 22 (magic ++ major ++ minor ++ patch ++ count ++ size) rest (by simp [hlengths])
  have hfile : bytes ++ rest = magic ++ (major ++ (minor ++ (patch ++ (count ++ (size ++ (entry ++ rest)))))) := by
    simp only [hfields, List.append_assoc]
  simp only [List.append_assoc, ← hfile, Nat.cast_inj] at h₃ h₄ h₅ h₆ h₁₄ h₂₂
  exact ⟨by rw [h₃, h₄, h₅], h₆, h₁₄, h₂₂⟩

theorem decode_header_append {header records : List UInt8} (hheader : image.header = .ok header)
    (hrecords : encodeRecords image.records = .ok records) :
    decode (header ++ (image.memory ++ records)) = .ok image := by
  obtain ⟨hmagic, hskip⟩ := header_start hheader (image.memory ++ records)
  obtain ⟨hversion, hcount, hsize, hentry⟩ := numberAt_header hheader (image.memory ++ records)
  have hbody : (header ++ (image.memory ++ records)).drop headerLength = image.memory ++ records :=
    List.drop_left' (length_of_header hheader)
  have hlength : (header ++ (image.memory ++ records)).length =
      headerLength + image.memory.length + image.records.length * Record.byteLength := by
    rw [List.length_append, List.length_append, length_of_header hheader, length_of_encodeRecords hrecords,
      Nat.add_assoc]
  have hshort : ¬(header ++ (image.memory ++ records)).length < headerLength := by omega
  have hrest : decodeRecords image.records.length records = image.records := by
    simpa using decodeRecords_encodeRecords hrecords []
  rw [decode, hskip, ok_bind, if_neg hshort]
  simp [hmagic, hversion, hcount, hsize, hentry, hlength, hbody, hrest, pure, Except.pure]

theorem decode_encode (h : image.encode executable = .ok bytes) : decode bytes = .ok image := by
  obtain ⟨header, records, hheader, hrecords, rfl⟩ := encode_eq_ok.1 h
  rw [← decode_header_append hheader hrecords]
  refine decode_of_skipInterpreterLine ?_
  rw [(header_start hheader _).2]
  cases executable with
  | true =>
    simp only [if_true, List.append_assoc]
    exact skipInterpreterLine_interpreterLine _
  | false =>
    simp only [Bool.false_eq_true, if_false, List.nil_append, List.append_assoc]
    exact (header_start hheader _).2

/-! ## Writing piece by piece -/

theorem written_records {records : List Record} (h : encodeRecords records = .ok bytes) :
    written (records.map Record.encode) = (bytes, .ok ()) := by
  induction records generalizing bytes with
  | nil =>
    cases h
    rfl
  | cons r rest ih =>
    obtain ⟨one, more, hone, hmore, rfl⟩ := encodeRecords_cons_eq_ok.1 h
    simp only [List.map_cons, hone, written, ih hmore]

theorem written_pieces (h : image.encode executable = .ok bytes) :
    written (image.pieces executable) = (bytes, .ok ()) := by
  obtain ⟨header, records, hheader, hrecords, rfl⟩ := encode_eq_ok.1 h
  cases executable <;>
    simp [pieces, hheader, written, written_records hrecords]

theorem encodeRecords_of_written {records : List Record}
    (h : written (records.map Record.encode) = (bytes, .ok ())) : encodeRecords records = .ok bytes := by
  induction records generalizing bytes with
  | nil =>
    cases h
    rfl
  | cons r rest ih =>
    rw [List.map_cons] at h
    cases hone : r.encode with
    | error e => simp [hone, written] at h
    | ok one =>
      rcases hmore : written (rest.map Record.encode) with ⟨more, result⟩
      simp only [hone, written, hmore, Prod.mk.injEq] at h
      obtain ⟨rfl, rfl⟩ := h
      exact encodeRecords_cons_eq_ok.2 ⟨one, more, hone, ih hmore, rfl⟩

theorem encode_of_written (h : written (image.pieces executable) = (bytes, .ok ())) :
    image.encode executable = .ok bytes := by
  cases hheader : image.header with
  | error e => cases executable <;> simp [pieces, hheader, written] at h
  | ok header =>
    rcases hrecords : written (image.records.map Record.encode) with ⟨records, result⟩
    have hpieces : written (image.pieces executable) =
        ((if executable then interpreterLine else []) ++ header ++ image.memory ++ records, result) := by
      cases executable <;> simp [pieces, hheader, written, hrecords]
    rw [hpieces, Prod.mk.injEq] at h
    obtain ⟨rfl, rfl⟩ := h
    exact encode_eq_ok.2 ⟨header, records, hheader, encodeRecords_of_written hrecords, rfl⟩

/-- A write does not find its file, or it leaves there the pieces that have a binary form. -/
theorem write_cases (image : Image) (executable : Bool) (path : Path) (tree : FileTree) :
    (tree.openForWriting path = .error .nullInName ∧ image.write executable path tree = (tree, .error .name)) ∨
    (∃ e, tree.openForWriting path = .error e ∧
      image.write executable path tree = (tree, .error (.fault ⟨.output path.written e, none⟩))) ∨
    ∃ place marked, tree.openForWriting path = .ok (place, marked) ∧
      image.write executable path tree =
        (tree.put place (.file (written (image.pieces executable)).1 (marked || executable)),
          (written (image.pieces executable)).2.mapError .range) := by
  unfold write
  split
  · exact .inl ⟨‹_›, rfl⟩
  · exact .inr (.inl ⟨_, ‹_›, rfl⟩)
  · exact .inr (.inr ⟨_, _, ‹_›, rfl⟩)

/-- What a successful write leaves in the file. -/
theorem write_eq_ok {path : Path} {tree tree' : FileTree} (h : image.write executable path tree = (tree', .ok ()))
    (hbytes : image.encode executable = .ok bytes) : tree'.readBytes path = .ok bytes := by
  rcases image.write_cases executable path tree with ⟨-, hwrite⟩ | ⟨e, -, hwrite⟩ | ⟨place, marked, hopen, hwrite⟩
  · rw [hwrite] at h
    cases h
  · rw [hwrite] at h
    cases h
  · rw [hwrite, written_pieces hbytes] at h
    cases h
    exact FileTree.readBytes_put hopen bytes _

/-- A fault of writing is one of output: the file cannot be opened, and then nothing has changed. -/
theorem write_fault {path : Path} {tree tree' : FileTree} {fault : Fault}
    (h : image.write executable path tree = (tree', .error (.fault fault))) :
    tree' = tree ∧ ∃ e, fault = ⟨.output path.written e, none⟩ := by
  rcases image.write_cases executable path tree with ⟨-, hwrite⟩ | ⟨e, -, hwrite⟩ | ⟨place, marked, -, hwrite⟩
  · rw [hwrite] at h
    cases h
  · rw [hwrite] at h
    cases h
    exact ⟨rfl, e, rfl⟩
  · rw [hwrite] at h
    cases hresult : (written (image.pieces executable)).2 <;> simp [hresult, Except.mapError] at h

/-- A successful write puts the binary form of the image at the place to which the path leads, from where it is read
back, marks the file if it is to be executable, and changes no other place. -/
theorem write_isPut {path : Path} {tree tree' : FileTree} (h : image.write executable path tree = (tree', .ok ())) :
    ∃ bytes place marked, image.encode executable = .ok bytes ∧ tree'.target path = .file place bytes marked ∧
      (executable = true → marked = true) ∧ Image.read path tree' = .ok image ∧
      ∀ other, other ≠ place → tree'.entries.lookup other = tree.entries.lookup other := by
  rcases image.write_cases executable path tree with ⟨-, hwrite⟩ | ⟨e, -, hwrite⟩ | ⟨place, marked, hopen, hwrite⟩
  · rw [hwrite] at h
    cases h
  · rw [hwrite] at h
    cases h
  · rcases hwritten : written (image.pieces executable) with ⟨bytes, result⟩
    rw [hwrite, hwritten] at h
    cases result with
    | error e => simp [Except.mapError] at h
    | ok x =>
      cases h
      have hencode := encode_of_written hwritten
      refine ⟨bytes, place, marked || executable, hencode, FileTree.target_put hopen _ _, by simp +contextual, ?_, ?_⟩
      · rw [Image.read, FileTree.readBytes_put hopen]
        simp only [Except.mapError, ok_bind, decode_encode hencode]
      · exact fun other hother => by rw [FileTree.lookup_put, if_neg hother]

/-- Writing fails at nothing but the opening of the file. -/
theorem write_isOk {path : Path} {tree : FileTree} {opened : Place × Bool}
    (h : tree.openForWriting path = .ok opened)
    (hbytes : image.encode executable = .ok bytes) :
    ∃ tree', image.write executable path tree = (tree', .ok ()) := by
  rcases image.write_cases executable path tree with ⟨hopen, -⟩ | ⟨e, hopen, -⟩ | ⟨place, marked, -, hwrite⟩
  · rw [hopen] at h
    cases h
  · rw [hopen] at h
    cases h
  · rw [hwrite, written_pieces hbytes]
    exact ⟨_, rfl⟩

/-- The binary form of an image whose numbers fit their fields exists and decodes to the image, with or without the
interpreter line. A write succeeds whenever the file can be opened, leaves exactly the binary form in the file, and the
image is what is read from it. -/
theorem decode_encode_read_write (h : image.Encodable) (executable : Bool) :
    ∃ bytes, image.encode executable = .ok bytes ∧ decode bytes = .ok image ∧
      ∀ (path : Path) (tree : FileTree),
        (∀ opened, tree.openForWriting path = .ok opened →
          ∃ tree', image.write executable path tree = (tree', .ok ())) ∧
        ∀ tree', image.write executable path tree = (tree', .ok ()) →
          tree'.readBytes path = .ok bytes ∧ Image.read path tree' = .ok image := by
  obtain ⟨bytes, hbytes⟩ := h.encode executable
  have hdecode := decode_encode hbytes
  refine ⟨bytes, hbytes, hdecode, fun path tree => ⟨fun _ hopen => write_isOk hopen hbytes, fun tree' hwrite => ?_⟩⟩
  have hread := write_eq_ok hwrite hbytes
  refine ⟨hread, ?_⟩
  rw [Image.read, hread]
  simp only [Except.mapError, ok_bind, hdecode]

/-- The image with a memory that reads like an interpreter line and a header. -/
def disguised : Image where
  memory := interpreterLine ++ magic ++ [1, 13, 13]
  records := [⟨0x10, 2 ^ 64 - 1⟩, ⟨0xff, 0⟩]
  entryPoint := 1

theorem disguised_decode_encode_read_write :
    disguised.Encodable ∧ ∃ bytes, disguised.encode true = .ok bytes ∧ decode bytes = .ok disguised ∧
      ∃ tree', disguised.write true (Path.ofString "out") {} = (tree', .ok ()) ∧
        tree'.readBytes (Path.ofString "out") = .ok bytes ∧
        Image.read (Path.ofString "out") tree' = .ok disguised := by
  have h : disguised.Encodable := by
    constructor <;> decide +kernel
  obtain ⟨bytes, hbytes, hdecode, hfiles⟩ := decode_encode_read_write h true
  obtain ⟨hwrites, hreads⟩ := hfiles (Path.ofString "out") {}
  obtain ⟨tree', hwrite⟩ := hwrites (["out"], false) (by decide +kernel)
  exact ⟨h, bytes, hbytes, hdecode, tree', hwrite, hreads tree' hwrite⟩

end Image

end AvmAssembler
