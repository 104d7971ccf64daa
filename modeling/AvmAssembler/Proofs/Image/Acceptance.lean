import Mathlib.Data.List.TakeWhile
import AvmAssembler.Proofs.Image.Codec

/-! # Which bytes are images

Bytes are an image if, behind a line for an interpreter, there is a header and then all that it announces. What was read
determines these bytes: its binary form is the header with what it announces. The length of a binary form is the one
that its header announces, so that no beginning of it is an image.
-/

namespace AvmAssembler

/-! ## Numbers of bytes -/

theorem foldl_ofBigEndian (bytes : List UInt8) (start : Nat) :
    bytes.foldl (fun n b => n * 256 + b.toNat) start = start * 256 ^ bytes.length + ofBigEndian bytes := by
  unfold ofBigEndian
  induction bytes generalizing start with
  | nil => simp
  | cons b bytes ih =>
    simp only [List.foldl_cons, List.length_cons]
    rw [ih, ih (0 * 256 + b.toNat), Nat.pow_succ]
    ring

theorem ofBigEndian_cons (b : UInt8) (bytes : List UInt8) :
    ofBigEndian (b :: bytes) = b.toNat * 256 ^ bytes.length + ofBigEndian bytes := by
  rw [ofBigEndian, List.foldl_cons, foldl_ofBigEndian, Nat.zero_mul, Nat.zero_add]

theorem ofBigEndian_lt (bytes : List UInt8) : ofBigEndian bytes < 256 ^ bytes.length := by
  induction bytes with
  | nil => simp [ofBigEndian]
  | cons b bytes ih =>
    have hb : b.toNat + 1 ≤ 256 := b.toNat_lt
    calc ofBigEndian (b :: bytes)
        = b.toNat * 256 ^ bytes.length + ofBigEndian bytes := ofBigEndian_cons b bytes
      _ < b.toNat * 256 ^ bytes.length + 256 ^ bytes.length := Nat.add_lt_add_left ih _
      _ = (b.toNat + 1) * 256 ^ bytes.length := by ring
      _ ≤ 256 * 256 ^ bytes.length := Nat.mul_le_mul_right _ hb
      _ = 256 ^ (b :: bytes).length := by rw [List.length_cons, Nat.pow_succ, Nat.mul_comm]

/-- The low bytes of a number do not depend on what stands above them. -/
theorem bigEndian_add (n high value : Nat) : bigEndian n (high * 256 ^ n + value) = bigEndian n value := by
  induction n generalizing high value with
  | zero => rfl
  | succ n ih =>
    have hhead : (high * 256 ^ (n + 1) + value) / 256 ^ n = high * 256 + value / 256 ^ n := by
      rw [Nat.pow_succ, Nat.mul_comm (256 ^ n), ← Nat.mul_assoc, Nat.add_comm,
        Nat.add_mul_div_right _ _ (Nat.pow_pos (by decide)), Nat.add_comm]
    have hbyte : UInt8.ofNat (high * 256 + value / 256 ^ n) = UInt8.ofNat (value / 256 ^ n) := by
      apply UInt8.toNat_inj.1
      simp
    have htail : high * 256 ^ (n + 1) + value = high * 256 * 256 ^ n + value := by
      rw [Nat.pow_succ]
      ring
    simp only [bigEndian, Nat.pow_eq]
    rw [hhead, hbyte, htail, ih]

/-- Bytes are the big-endian form of the number that they write. -/
theorem bigEndian_ofBigEndian (bytes : List UInt8) : bigEndian bytes.length (ofBigEndian bytes) = bytes := by
  induction bytes with
  | nil => rfl
  | cons b bytes ih =>
    have hhead : ofBigEndian (b :: bytes) / 256 ^ bytes.length = b.toNat := by
      rw [ofBigEndian_cons, Nat.mul_comm, Nat.mul_add_div (Nat.pow_pos (by decide)),
        Nat.div_eq_of_lt (ofBigEndian_lt bytes), Nat.add_zero]
    simp only [List.length_cons, bigEndian, Nat.pow_eq]
    rw [hhead, UInt8.ofNat_toNat, ofBigEndian_cons, bigEndian_add, ih]

theorem field_ofBigEndian (bytes : List UInt8) : field bytes.length (ofBigEndian bytes) = .ok bytes := by
  have hlt : (ofBigEndian bytes : Int) < Nat.pow 256 bytes.length := by exact_mod_cast ofBigEndian_lt bytes
  rw [field, if_pos ⟨Int.natCast_nonneg _, hlt⟩, Int.toNat_natCast, bigEndian_ofBigEndian]

namespace Image

/-! ## Bytes that are an image -/

/-- What is behind the first line of bytes if that is one for an interpreter, and all of the bytes otherwise. -/
inductive Body : (bytes body : List UInt8) → Prop
  | line {line body} : [0x23, 0x21] <+: line ++ 0x0a :: body → 0x0a ∉ line → Body (line ++ 0x0a :: body) body
  | whole {bytes} : ¬[0x23, 0x21] <+: bytes → Body bytes bytes

/-- The length of an image that its header announces: the header, the memory and the records. -/
def extent (body : List UInt8) : Nat :=
  headerLength + numberAt body 14 8 + numberAt body 6 8 * Record.byteLength

/-- There is a header, and behind it there is what it announces. -/
structure Complete (body : List UInt8) : Prop where
  header : headerLength ≤ body.length
  magic : Image.magic <+: body
  extent_le : extent body ≤ body.length

def announced (body : List UInt8) : Image where
  memory := (body.drop headerLength).take (numberAt body 14 8)
  records := decodeRecords (numberAt body 6 8) ((body.drop headerLength).drop (numberAt body 14 8))
  entryPoint := numberAt body 22 8
  version := ⟨numberAt body 3 1, numberAt body 4 1, numberAt body 5 1⟩

variable {bytes body more : List UInt8} {image : Image} {executable : Bool}

theorem skipInterpreterLine_of_start (h : [0x23, 0x21] <+: bytes) :
    skipInterpreterLine bytes =
      match bytes.dropWhile (· ≠ 0x0a) with
      | _ :: rest => .ok rest
      | [] => .error .unterminatedInterpreterLine := by
  obtain ⟨rest, rfl⟩ := h
  rfl

theorem skipInterpreterLine_of_no_start (h : ¬[0x23, 0x21] <+: bytes) : skipInterpreterLine bytes = .ok bytes := by
  unfold skipInterpreterLine
  split
  · rename_i rest
    exact absurd ⟨rest, rfl⟩ h
  · rfl

theorem dropWhile_line {line : List UInt8} (h : 0x0a ∉ line) (body : List UInt8) :
    (line ++ 0x0a :: body).dropWhile (· ≠ 0x0a) = 0x0a :: body := by
  have hline : ∀ b ∈ line, decide (b ≠ 0x0a) = true := fun b hb => decide_eq_true fun heq => h (heq ▸ hb)
  rw [List.dropWhile_append_of_pos hline]
  rfl

theorem skipInterpreterLine_of_body (h : Body bytes body) : skipInterpreterLine bytes = .ok body := by
  cases h with
  | line hstart hline =>
    rw [skipInterpreterLine_of_start hstart, dropWhile_line hline]
  | whole hstart => exact skipInterpreterLine_of_no_start hstart

theorem body_of_skipInterpreterLine (h : skipInterpreterLine bytes = .ok body) : Body bytes body := by
  by_cases hstart : [0x23, 0x21] <+: bytes
  · rw [skipInterpreterLine_of_start hstart] at h
    by_cases hmem : 0x0a ∈ bytes
    · obtain ⟨line, rest, rfl, hline⟩ := List.eq_append_cons_of_mem hmem
      rw [dropWhile_line hline] at h
      cases h
      exact .line hstart hline
    · have hnil : bytes.dropWhile (· ≠ 0x0a) = [] :=
        List.dropWhile_eq_nil_iff.2 fun b hb => decide_eq_true fun heq => hmem (heq ▸ hb)
      rw [hnil] at h
      cases h
  · rw [skipInterpreterLine_of_no_start hstart] at h
    cases h
    exact .whole hstart

theorem Body.length_le (h : Body bytes body) : body.length ≤ bytes.length := by
  cases h with
  | line =>
    rw [List.length_append, List.length_cons]
    omega
  | whole => exact Nat.le_refl _

/-- Bytes have at most one body. -/
theorem Body.unique {other : List UInt8} (h : Body bytes body) (h' : Body bytes other) : other = body :=
  Except.ok.inj ((skipInterpreterLine_of_body h').symm.trans (skipInterpreterLine_of_body h))

/-- More bytes behind are behind the body, once it is settled whether there is an interpreter line. -/
theorem Body.append (h : Body bytes body) (hlength : 2 ≤ bytes.length) (more : List UInt8) :
    Body (bytes ++ more) (body ++ more) := by
  cases h with
  | @line line _ hstart hline =>
    have hbehind : Body (line ++ 0x0a :: (body ++ more)) (body ++ more) :=
      .line (by simpa using hstart.trans (List.prefix_append _ more)) hline
    simpa using hbehind
  | whole hstart =>
    exact .whole fun h => hstart (List.prefix_of_prefix_length_le h (List.prefix_append _ _) hlength)

/-! ## What a header announces -/

theorem numberAt_append {offset n : Nat} (h : offset + n ≤ bytes.length) (more : List UInt8) :
    numberAt (bytes ++ more) offset n = numberAt bytes offset n := by
  rw [numberAt, numberAt, List.drop_append_of_le_length (by omega),
    List.take_append_of_le_length (by rw [List.length_drop]; omega)]

theorem field_numberAt {offset n : Nat} (h : offset + n ≤ bytes.length) :
    field n (numberAt bytes offset n) = .ok ((bytes.drop offset).take n) := by
  have hlength : ((bytes.drop offset).take n).length = n := by
    rw [List.length_take, List.length_drop]
    omega
  have hfield := field_ofBigEndian ((bytes.drop offset).take n)
  rwa [hlength] at hfield

theorem extent_append (h : headerLength ≤ body.length) (more : List UInt8) : extent (body ++ more) = extent body := by
  have hlength : 30 ≤ body.length := h
  rw [extent, extent, numberAt_append (by omega), numberAt_append (by omega)]

/-- The checks that are made on a body. -/
theorem decode_of_body (h : Body bytes body) :
    decode bytes =
      if body.length < headerLength then .error (.short body.length)
      else if body.take 3 ≠ magic then .error (.badMagic (body.take 3))
      else if body.length < extent body then .error (.truncated (extent body) body.length)
      else .ok (announced body) := by
  rw [decode, skipInterpreterLine_of_body h, ok_bind]
  by_cases hheader : body.length < headerLength
  · rw [if_pos hheader, if_pos hheader]
    rfl
  · rw [if_neg hheader, if_neg hheader]
    by_cases hmagic : body.take 3 ≠ magic
    · simp only [if_pos hmagic]
      rfl
    · simp only [if_neg hmagic]
      by_cases hextent : body.length < extent body
      · rw [if_pos hextent]
        exact if_pos hextent
      · rw [if_neg hextent]
        exact if_neg hextent

theorem exists_body_of_decode (h : decode bytes = .ok image) : ∃ body, Body bytes body := by
  obtain ⟨body, hbody, -⟩ := bind_eq_ok.1 h
  exact ⟨body, body_of_skipInterpreterLine hbody⟩

theorem decode_eq_ok (h : Body bytes body) : decode bytes = .ok image ↔ Complete body ∧ image = announced body := by
  have hmagic : body.take 3 = magic ↔ magic <+: body := by rw [List.prefix_iff_eq_take, eq_comm]; rfl
  rw [decode_of_body h]
  constructor
  · intro hdecode
    split_ifs at hdecode with hshort hbad htruncated
    cases hdecode
    exact ⟨⟨Nat.not_lt.1 hshort, hmagic.1 (not_not.1 hbad), Nat.not_lt.1 htruncated⟩, rfl⟩
  · rintro ⟨hcomplete, rfl⟩
    rw [if_neg (Nat.not_lt.2 hcomplete.header), if_neg (not_not.2 (hmagic.2 hcomplete.magic)),
      if_neg (Nat.not_lt.2 hcomplete.extent_le)]

/-! ## The binary form of what was read -/

theorem length_decodeRecords (count : Nat) (bytes : List UInt8) : (decodeRecords count bytes).length = count := by
  induction count generalizing bytes with
  | zero => rfl
  | succ count ih => rw [decodeRecords, List.length_cons, ih]

theorem encode_record (h : Record.byteLength ≤ bytes.length) :
    Record.encode ⟨numberAt bytes 0 1, numberAt bytes 1 8⟩ = .ok (bytes.take Record.byteLength) := by
  have hlength : 9 ≤ bytes.length := h
  have hsplit : bytes.take (1 + 8) = bytes.take 1 ++ (bytes.drop 1).take 8 := List.take_add
  exact Record.encode_eq_ok.2 ⟨_, _, field_numberAt (by omega), field_numberAt (by omega), hsplit⟩

/-- Records that were read have the binary form that they were read from. -/
theorem encodeRecords_decodeRecords {count : Nat} (h : count * Record.byteLength ≤ bytes.length) :
    encodeRecords (decodeRecords count bytes) = .ok (bytes.take (count * Record.byteLength)) := by
  induction count generalizing bytes with
  | zero =>
    rw [Nat.zero_mul]
    rfl
  | succ count ih =>
    rw [Nat.add_mul, Nat.one_mul] at h
    have hrest : count * Record.byteLength ≤ (bytes.drop Record.byteLength).length := by
      rw [List.length_drop]
      omega
    refine encodeRecords_cons_eq_ok.2 ⟨_, _, encode_record (by omega), ih hrest, ?_⟩
    rw [Nat.add_mul, Nat.one_mul, Nat.add_comm, List.take_add]

theorem header_announced (h : Complete body) : (announced body).header = .ok (body.take headerLength) := by
  have hlength : 30 ≤ body.length := h.header
  have hmemory : (announced body).memory.length = numberAt body 14 8 := by
    have := h.extent_le
    simp only [announced, List.length_take, List.length_drop, extent] at this ⊢
    omega
  have hrecords : (announced body).records.length = numberAt body 6 8 := length_decodeRecords _ _
  have hmagic : magic = body.take 3 := List.prefix_iff_eq_take.1 h.magic
  have hfields : headerLength = 3 + 1 + 1 + 1 + 8 + 8 + 8 := rfl
  rw [header, hmemory, hrecords]
  simp only [announced]
  rw [field_numberAt (by omega), ok_bind, field_numberAt (by omega), ok_bind, field_numberAt (by omega), ok_bind,
    field_numberAt (by omega), ok_bind, field_numberAt (by omega), ok_bind, field_numberAt (by omega), ok_bind, hmagic,
    hfields]
  simp only [List.take_add]
  rfl

/-- What was read has the binary form that it was read from. -/
theorem encode_announced (h : Complete body) : (announced body).encode false = .ok (body.take (extent body)) := by
  have hextent := h.extent_le
  have hrecords : numberAt body 6 8 * Record.byteLength ≤
      ((body.drop headerLength).drop (numberAt body 14 8)).length := by
    rw [extent] at hextent
    rw [List.length_drop, List.length_drop]
    omega
  refine encode_eq_ok.2 ⟨_, _, header_announced h, encodeRecords_decodeRecords hrecords, ?_⟩
  rw [extent, List.take_add, List.take_add, List.drop_drop]
  rfl

/-! ## Beginnings of a binary form -/

/-- A binary form has a body that is as long as its header announces. -/
theorem body_of_encode (h : image.encode executable = .ok bytes) :
    ∃ body, Body bytes body ∧ extent body = body.length := by
  obtain ⟨header, records, hheader, hrecords, rfl⟩ := encode_eq_ok.1 h
  obtain ⟨-, hskip⟩ := header_start hheader (image.memory ++ records)
  obtain ⟨-, hcount, hsize, -⟩ := numberAt_header hheader (image.memory ++ records)
  refine ⟨header ++ (image.memory ++ records), body_of_skipInterpreterLine ?_, ?_⟩
  · cases executable with
    | true => simpa using skipInterpreterLine_interpreterLine (header ++ (image.memory ++ records))
    | false => simpa using hskip
  · rw [extent, hcount, hsize, List.length_append, List.length_append, length_of_header hheader,
      length_of_encodeRecords hrecords, Nat.add_assoc]

/-- A beginning of a binary form has a body, if any, in which something is missing that its header announces. -/
theorem not_complete_of_cut (h : image.encode executable = .ok (bytes ++ more)) (hmore : more ≠ [])
    (hbody : Body bytes body) : ¬Complete body := by
  intro hcomplete
  have hheader : 30 ≤ body.length := hcomplete.header
  have hlength : body.length ≤ bytes.length := hbody.length_le
  obtain ⟨whole, hwhole, hextent⟩ := body_of_encode h
  obtain rfl : whole = body ++ more := (hbody.append (by omega) more).unique hwhole
  have hcut := hcomplete.extent_le
  have hpos := List.length_pos_iff.2 hmore
  rw [extent_append hcomplete.header, List.length_append] at hextent
  omega

/-- Bytes are read exactly if their body is complete: if behind the line for an interpreter, should they start with one,
there is a header with the magic letters and then all that it announces. What was read has just these bytes of the body
as its binary form, and anything else is an error. So of a binary form, with or without the interpreter line, nothing
can be cut off behind. -/
theorem decode_accepts :
    (∀ bytes, ((∃ image, decode bytes = .ok image) ↔ ∃ body, Body bytes body ∧ Complete body) ∧
      ((¬∃ body, Body bytes body ∧ Complete body) → ∃ e, decode bytes = .error e) ∧
      ∀ image body, decode bytes = .ok image → Body bytes body → image.encode false = .ok (body.take (extent body))) ∧
    ∀ (image : Image) (executable : Bool) (bytes cut : List UInt8), image.encode executable = .ok bytes →
      cut <+: bytes → cut ≠ bytes → ∃ e, decode cut = .error e := by
  have haccepts : ∀ bytes, (∃ image, decode bytes = .ok image) ↔ ∃ body, Body bytes body ∧ Complete body := by
    intro bytes
    constructor
    · rintro ⟨image, hdecode⟩
      obtain ⟨body, hbody⟩ := exists_body_of_decode hdecode
      exact ⟨body, hbody, ((decode_eq_ok hbody).1 hdecode).1⟩
    · rintro ⟨body, hbody, hcomplete⟩
      exact ⟨_, (decode_eq_ok hbody).2 ⟨hcomplete, rfl⟩⟩
  have hrejects : ∀ bytes, (¬∃ body, Body bytes body ∧ Complete body) → ∃ e, decode bytes = .error e := by
    intro bytes hnone
    cases hdecode : decode bytes with
    | ok image => exact absurd ((haccepts bytes).1 ⟨image, hdecode⟩) hnone
    | error e => exact ⟨e, rfl⟩
  refine ⟨fun bytes => ⟨haccepts bytes, hrejects bytes, fun image body hdecode hbody => ?_⟩, ?_⟩
  · obtain ⟨hcomplete, rfl⟩ := (decode_eq_ok hbody).1 hdecode
    exact encode_announced hcomplete
  · rintro image executable _ cut hencode ⟨more, rfl⟩ hne
    have hmore : more ≠ [] := by
      rintro rfl
      exact hne (List.append_nil cut).symm
    exact hrejects cut fun ⟨body, hbody, hcomplete⟩ => not_complete_of_cut hencode hmore hbody hcomplete

/-- The disguised image is read behind its interpreter line, also with a byte too many, and not with its last record cut
off in the middle. -/
theorem disguised_decode_accepts :
    ∃ bytes body, disguised.encode true = .ok bytes ∧ Body (bytes ++ [0]) body ∧ decode (bytes ++ [0]) = .ok disguised ∧
      disguised.encode false = .ok (body.take (extent body)) ∧ bytes.take 80 <+: bytes ∧ bytes.take 80 ≠ bytes ∧
      ∃ e, decode (bytes.take 80) = .error e := by
  obtain ⟨haccepts, hcuts⟩ := decode_accepts
  have hlength : (disguised.encode true).toOption.map List.length = some 84 := by decide +kernel
  have hlonger : (disguised.encode true).toOption.map (fun bytes => (decode (bytes ++ [0])).toOption) =
      some (some disguised) := by decide +kernel
  cases hbytes : disguised.encode true with
  | error e => simp [hbytes, Except.toOption] at hlength
  | ok bytes =>
    have hbytes84 : bytes.length = 84 := by simpa [hbytes, Except.toOption] using hlength
    have hdecode : decode (bytes ++ [0]) = .ok disguised := by
      cases hdecode : decode (bytes ++ [0]) <;> simp_all [Except.toOption]
    obtain ⟨hcomplete, -, hencode⟩ := haccepts (bytes ++ [0])
    obtain ⟨body, hbody, -⟩ := hcomplete.1 ⟨disguised, hdecode⟩
    have hne : bytes.take 80 ≠ bytes := fun heq => by simpa [hbytes84] using congrArg List.length heq
    exact ⟨bytes, body, rfl, hbody, hdecode, hencode disguised body hdecode hbody, List.take_prefix 80 bytes, hne,
      hcuts disguised true bytes _ hbytes (List.take_prefix 80 bytes) hne⟩

end Image

end AvmAssembler
