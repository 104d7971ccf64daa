import AvmAssembler.Proofs.Assembly.Atomicity
import AvmAssembler.Proofs.Assembly.Literal
import Mathlib.Algebra.Ring.Nat

/-! # Limits

How long the memory of an image can be. An initializer takes so many bytes at most, whatever the symbols are, and the
memory is no longer than the initializers and the embedded files of a program are together. The limit on memory is
checked for each fill on its own: several fills go beyond it.
-/

namespace AvmAssembler

/-- The most bytes that an initializer takes. -/
def Expr.room (type : ElementType) : Expr → Nat
  | fill .. => Assembly.memoryLimit
  | string _ text => (Text.Utf8.encode text).length * type.size
  | _ => type.size

def Surroundings.sizeOf (env : Surroundings) (l : Option Location) (path : String) : Nat :=
  match env.tree.find? path ((l.map Location.file).getD FileTree.inputName) env.searchPaths with
  | .ok (some resolved) =>
    match env.tree.readBytes resolved with
    | .error _ => 0
    | .ok bytes => bytes.length
  | _ => 0

/-- The most bytes that a statement adds to the memory. -/
def Statement.room (env : Surroundings) : Statement → Nat
  | region _ _ type initializers => (initializers.map (Expr.room type)).sum
  | embedding l _ path => env.sizeOf l path
  | _ => 0

/-- The most bytes of memory that a program takes. -/
def Program.room (env : Surroundings) (program : Program) : Nat :=
  (program.statements.map (Statement.room env)).sum

namespace Assembly

/-! ## Initializers -/

theorem fill_room (pending : Pending) (type : ElementType) (l : Option Location) (value count : Expr) (a : Assembly) :
    Leads (initializerBytes pending type (.fill l value count)) a (fun bytes _ => bytes.length ≤ memoryLimit)
      (fun _ _ => True) := by
  refine Leads.of_bind (valueOf_leads pending a value) (fun word b _ => ?_) fun _ _ _ => trivial
  refine Leads.of_bind (element_leads type value.location b word) (fun bytes c _ => ?_) fun _ _ _ => trivial
  refine Leads.of_bind (valueOf_leads pending c count) (fun times d _ => ?_) fun _ _ _ => trivial
  refine Leads.of_ite (Leads.of_throw_bind trivial) ?_
  split
  case isTrue => exact Leads.of_throw_bind trivial
  case isFalse hlimit =>
    refine Leads.of_pure ?_
    rw [List.length_flatten, List.map_replicate, List.sum_replicate_nat, Nat.mul_comm]
    exact Nat.le_of_not_lt hlimit

theorem initializerBytes_room (pending : Pending) (type : ElementType) (e : Expr) (a : Assembly) :
    Leads (initializerBytes pending type e) a (fun bytes _ => bytes.length ≤ e.room type) (fun _ _ => True) := by
  have hencoding := initializerBytes_leads pending type a e
  cases e with
  | fill l value count => exact fill_room pending type l value count a
  | string l text =>
    refine hencoding.mono (fun bytes b h => ?_) fun _ _ _ => trivial
    obtain rfl := Option.some.inj h.2
    simp [Expr.room, List.length_flatMap]
  | _ =>
    refine hencoding.mono (fun bytes b h => ?_) fun _ _ _ => trivial
    simp only [Expr.encoding?, Option.map_eq_some_iff] at h
    obtain ⟨-, word, -, rfl⟩ := h
    exact (bigEndian_length type.size word).le

theorem initializersBytes_room (pending : Pending) (type : ElementType) (es : List Expr) (a : Assembly) :
    Leads (initializersBytes pending type es) a (fun bytes _ => bytes.length ≤ (es.map (Expr.room type)).sum)
      (fun _ _ => True) := by
  induction es generalizing a with
  | nil => exact Leads.of_pure (Nat.le_refl 0)
  | cons e es ih =>
    refine Leads.of_bind (initializerBytes_room pending type e a) (fun bytes b hbytes => ?_) fun _ _ _ => trivial
    refine Leads.of_bind (ih b) (fun more c hmore => Leads.of_pure ?_) fun _ _ _ => trivial
    rw [List.length_append, List.map_cons, List.sum_cons]
    exact Nat.add_le_add hbytes hmore

/-! ## Statements -/

theorem bindRegion_room (pending : Pending) (l : Option Location) (name : String) (type : ElementType)
    (es : List Expr) (a : Assembly) :
    Leads (bindRegion pending l name type es) a
      (fun _ b => b.memory.length ≤ a.memory.length + (es.map (Expr.room type)).sum)
      (Fails a (.region l name type es)) := by
  refine Leads.of_bind (checkFree_leads (s := .region l name type es) rfl) ?_ fun _ _ h => h
  rintro _ a ⟨rfl, hfree⟩
  apply Leads.of_get
  have hbytes : Leads (initializersBytes pending type es) a
      (fun bytes b => Quiet a b ∧ bytes.length ≤ (es.map (Expr.room type)).sum)
      (fun fault b => Quiet a b ∧ a.Admits fault) :=
    ((initializersBytes_leads pending type es a).and (initializersBytes_room pending type es a)).mono
      (fun _ _ h => ⟨h.1.1, h.2⟩) fun _ _ h => h.1
  refine Leads.of_bind (orBind_leads hfree hbytes) ?_ fun _ _ h => ⟨_, .region hfree h.2, h.1⟩
  rintro bytes b ⟨hb, hlength⟩
  refine Leads.of_ok (appendRegion_of_free l bytes (hb.symbols ▸ hfree)) ?_
  rw [grow_memory, hb.memory, List.length_append]
  exact Nat.add_le_add_left hlength a.memory.length

theorem Effect.room_eq {env : Surroundings} {a : Assembly} {s : Statement} {g : Growth} (h : Effect env a s g)
    (hregion : ∀ l name type es, s ≠ .region l name type es) : g.bytes.length = s.room env := by
  cases h with
  | label | nullary | unary | constant => rfl
  | region => exact absurd rfl (hregion _ _ _ _)
  | embedding hfree hfind hread => simp only [Statement.room, Surroundings.sizeOf, hfind, hread]

/-- A statement adds no more than it has room for, and nothing if it is stopped. -/
theorem process_room (env : Surroundings) (pending : Pending) (s : Statement) (a : Assembly) :
    Leads (process env pending s) a (fun _ b => b.memory.length ≤ a.memory.length + s.room env)
      (fun _ b => b.memory = a.memory) := by
  cases hresult : process env pending s a with
  | error obstacle b =>
    refine Leads.of_error hresult ?_
    cases obstacle with
    | fault fault => rw [process_failed hresult]
    | search e => rw [((process_leads env pending s a).at_error hresult).1]
  | ok _ b =>
    refine Leads.of_ok hresult ?_
    by_cases hregion : ∃ l name type es, s = .region l name type es
    · obtain ⟨l, name, type, es, rfl⟩ := hregion
      exact (bindRegion_room pending l name type es a).at_ok (adaptExcept_eq_ok.1 hresult)
    · obtain ⟨g, hg, hb⟩ := (process_leads env pending s a).at_ok hresult
      have hroom := hg.room_eq fun l name type es heq => hregion ⟨l, name, type, es, heq⟩
      rw [hb.memory, grow_memory, List.length_append, hroom]

/-! ## Programs -/

theorem attempt_room (env : Surroundings) (pending : Pending) (s : Statement) (a : Assembly) :
    Leads (attempt (process env pending s)) a (fun _ b => b.memory.length ≤ a.memory.length + s.room env)
      (fun _ b => b.memory.length ≤ a.memory.length + s.room env) := by
  have hfailed : ∀ {b c : Assembly}, b.memory = a.memory → c = { b with journal := c.journal } →
      c.memory.length ≤ a.memory.length + s.room env := by
    intro b c hb hc
    rw [hc, hb]
    exact Nat.le_add_right ..
  refine (attempt_leads (process_room env pending s a)).mono ?_ ?_
  · rintro _ c (h | ⟨fault, b, hb, -, hc, -⟩)
    · exact h
    · exact hfailed hb hc
  · rintro _ c (⟨fault, b, hb, hc, -⟩ | ⟨e, -, hc⟩)
    · exact hfailed hb hc
    · rw [hc]
      exact Nat.le_add_right ..

/-- However the second pass ends, the memory has grown by what the statements have room for at most. -/
theorem processAll_room (env : Surroundings) (pending : Pending) (ss : List Statement) (a : Assembly) :
    Leads (processAll env pending ss) a
      (fun _ b => b.memory.length ≤ a.memory.length + (ss.map (Statement.room env)).sum)
      (fun _ b => b.memory.length ≤ a.memory.length + (ss.map (Statement.room env)).sum) := by
  induction ss generalizing a with
  | nil => exact Leads.of_pure (Nat.le_refl _)
  | cons s rest ih =>
    rw [List.map_cons, List.sum_cons]
    refine Leads.of_bind (attempt_room env pending s a) (fun _ b hb => ?_) fun _ b hb => by omega
    exact (ih b).mono (fun _ c hc => by omega) fun _ c hc => by omega

/-- The memory of an image is no longer than its program has room for, behind what was there before. -/
theorem compile_room {settings : AssemblySettings} {program : Program} {image : Image} {a b : Assembly}
    (h : compile settings program a = .ok (some image) b) :
    image.memory.length ≤ a.memory.length + program.room settings.surroundings := by
  obtain ⟨answer, c, hresolve, h⟩ := exists_of_bind_eq_ok h
  cases answer with
  | false => cases h
  | true =>
    have hresolved : Resolved settings program a c := ((resolve_leads settings program a).at_ok hresolve).2.2 rfl
    rw [if_pos rfl, generate_eq] at h
    obtain ⟨_, d, hprocess, hconclude⟩ := exists_of_bind_eq_ok h
    obtain ⟨hquiet, himage⟩ := (conclude_leads d).at_ok hconclude
    obtain ⟨-, rfl⟩ := himage image rfl
    rw [hquiet.memory, ← hresolved.code.1]
    exact (processAll_room _ _ _ c).at_ok hprocess

/-! ## Beyond the limit -/

section

variable {pending : Pending} {type : ElementType} {l l' l'' : Option Location} {times : Nat}

/-- A fill up to the limit with a byte for its value is so many bytes. -/
theorem initializerBytes_fill (byte : UInt8) (h : times ≤ memoryLimit) (a : Assembly) :
    initializerBytes pending .byte (.fill l (.integer l' byte.toNat) (.integer l'' times)) a =
      .ok (List.replicate times byte) a := by
  have hword : Word.ofInt (byte.toNat : Int) = byte.toNat := by
    rw [Word.ofInt_natCast, Nat.mod_eq_of_lt (Nat.lt_trans byte.toNat_lt (by decide))]
  have hlimit : times < 2 ^ 63 := Nat.lt_of_le_of_lt h (by decide)
  have htimes : Word.ofInt (times : Int) = times := by
    rw [Word.ofInt_natCast, Nat.mod_eq_of_lt (Nat.lt_trans hlimit (by decide))]
  rw [initializerBytes, bind_of_ok (valueOf_integer pending l' byte.toNat a), hword,
    bind_of_ok (element_byte rfl _ byte a), bind_of_ok (valueOf_integer pending l'' times a), htimes]
  have hnegative : Word.isNegative times = false := decide_eq_false (Nat.not_le_of_lt hlimit)
  have hfits : ¬ memoryLimit < [byte].length * times := by
    rw [List.length_singleton, Nat.one_mul]
    exact Nat.not_lt_of_le h
  rw [hnegative, if_neg Bool.false_ne_true, if_neg hfits]
  simp

def fills (byte : UInt8) (times n : Nat) : List Expr :=
  List.replicate n (.fill none (.integer none byte.toNat) (.integer none times))

theorem initializersBytes_fills (byte : UInt8) (h : times ≤ memoryLimit) (n : Nat) (a : Assembly) :
    initializersBytes pending .byte (fills byte times n) a = .ok (List.replicate (n * times) byte) a := by
  induction n with
  | zero =>
    rw [Nat.zero_mul]
    rfl
  | succ n ih =>
    rw [fills, List.replicate_succ, initializersBytes, bind_of_ok (initializerBytes_fill byte h a)]
    rw [← fills, bind_of_ok ih, pure_result, List.replicate_append_replicate, Nat.succ_mul, Nat.add_comm]

end

def fillsProgram (byte : UInt8) (times n : Nat) : Program :=
  ⟨[.label none "entry", .region none "x" .byte (fills byte times n)], "fills"⟩

/-- Fills within the limit stand one behind the other in the memory of the image, whatever their number is. -/
theorem compile_fills (env : Surroundings) (byte : UInt8) {times : Nat} (h : times ≤ memoryLimit) (n : Nat) :
    ∃ image a, compile ⟨env, "entry"⟩ (fillsProgram byte times n) {} = .ok (some image) a ∧
      image.memory = List.replicate (n * times) byte := by
  let program := fillsProgram byte times n
  let pending := declarations program.statements
  have hbind : bindLabels 0 [] program.statements {} =
      .ok 0 (grow {} { entries := [("entry", ⟨none, .label 0⟩)] }) := rfl
  obtain ⟨start, hresolve, hfree, hmemory, hclean⟩ : ∃ start,
      resolve ⟨env, "entry"⟩ program {} = .ok true start ∧ start.symbols.get? "x" = none ∧ start.memory = [] ∧
        start.journal.diagnostics.happened = false :=
    ⟨_, resolve_of_bindLabels hbind rfl rfl, rfl, rfl, rfl⟩
  have hlabel : process env pending (.label none "entry") start = .ok () start := rfl
  have hregion : process env pending (.region none "x" .byte (fills byte times n)) start = .ok () _ :=
    process_region hfree (initializersBytes_fills byte h n start)
  have hprocess : processAll env pending program.statements start = .ok () _ :=
    (bind_of_ok (attempt_of_ok hlabel)).trans (bind_of_ok (attempt_of_ok hregion))
  rw [compile, bind_of_ok hresolve, if_pos rfl, generate_eq]
  refine ⟨_, _, (bind_of_ok hprocess).trans (conclude_of_clean hclean), ?_⟩
  rw [grow_memory, hmemory, List.nil_append]

theorem fillsProgram_room (env : Surroundings) (n : Nat) :
    (fillsProgram 0 memoryLimit n).room env = n * memoryLimit := by
  have hfills : (fills 0 memoryLimit n).map (Expr.room .byte) = List.replicate n memoryLimit := List.map_replicate
  have hroom : (fillsProgram 0 memoryLimit n).room env = ((fills 0 memoryLimit n).map (Expr.room .byte)).sum := by
    simp [fillsProgram, Program.room, Statement.room]
  rw [hroom, hfills, List.sum_replicate_nat]

/-- Fills of the greatest size take all the room of their program. -/
theorem compile_room_reached (env : Surroundings) (n : Nat) :
    ∃ image a, compile ⟨env, "entry"⟩ (fillsProgram 0 memoryLimit n) {} = .ok (some image) a ∧
      image.memory.length = (fillsProgram 0 memoryLimit n).room env := by
  obtain ⟨image, a, hcompile, hmemory⟩ := compile_fills env 0 (Nat.le_refl memoryLimit) n
  exact ⟨image, a, hcompile, by rw [hmemory, List.length_replicate, fillsProgram_room]⟩

/-- The limit on a fill is no limit on whole programs, not even without embeddings. -/
theorem exists_image_beyond_limit (env : Surroundings) :
    ∃ program image a, (∀ l name path, Statement.embedding l name path ∉ program.statements) ∧
      compile ⟨env, "entry"⟩ program {} = .ok (some image) a ∧ memoryLimit < image.memory.length := by
  obtain ⟨image, a, hcompile, hlength⟩ := compile_room_reached env 2
  refine ⟨fillsProgram 0 memoryLimit 2, image, a, by simp [fillsProgram], hcompile, ?_⟩
  rw [hlength, fillsProgram_room]
  decide

end Assembly

end AvmAssembler
