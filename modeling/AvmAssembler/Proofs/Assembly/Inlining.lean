import AvmAssembler.Proofs.Assembly.Declaration
import AvmAssembler.Proofs.Assembly.Indexing
import AvmAssembler.Proofs.Assembly.Literal
import AvmAssembler.Proofs.Assembly.Rewriting
import Mathlib.Algebra.Order.BigOperators.Group.List
import Mathlib.Algebra.Order.Ring.Int

/-! # Inlining constants

A constant is evaluated once, where it is declared, and its value is a word as long as no region is larger than words can
tell. The expression of the constant has the same value at every later place, since tables only grow. So the declaration
can be dropped and its expression be put in the places of its name without a change of the image.
-/

namespace AvmAssembler

/-! ## Values are words -/

def SymbolTable.HasWordSizes (table : SymbolTable) : Prop :=
  ∀ name l address (size : Int), (name, ⟨l, .region address size⟩) ∈ table.entries → 0 ≤ size ∧ size < Word.modulus

theorem SymbolTable.HasWordSizes.hasSizes {table : SymbolTable} (h : table.HasWordSizes) : table.HasSizes :=
  fun name l address size hmem => (h name l address size hmem).1

theorem Binary64.power_lt {base exponent : Int} {r : Nat} (h : power base exponent = .ok r) : r < Word.modulus := by
  simp only [power] at h
  split at h
  · cases h
  · split at h
    · cases h
    · split at h
      · cases h
        exact UInt64.toNat_lt _
      · cases h

theorem Operator.shift_lt {amount v : Int} {f : Nat → Int} (hf : ∀ factor, f factor < Word.modulus)
    (h : shift amount f = .ok v) : v < Word.modulus := by
  unfold shift at h
  split at h
  · cases h
    decide
  · split at h
    · cases h
    · cases h
      exact hf _

theorem Operator.apply_lt {o : Operator} {x y v : Int} (hx : 0 ≤ x ∧ x < Word.modulus) (hy : 0 ≤ y ∧ y < Word.modulus)
    (h : o.apply x y = .ok v) : v < Word.modulus := by
  obtain ⟨m, rfl⟩ := Int.eq_ofNat_of_zero_le hx.1
  obtain ⟨n, rfl⟩ := Int.eq_ofNat_of_zero_le hy.1
  have hm : m < 2 ^ Word.width := Int.ofNat_lt.1 hx.2
  have hn : n < 2 ^ Word.width := Int.ofNat_lt.1 hy.2
  cases o with
  | add | sub | mul =>
    cases h
    exact Int.ofNat_lt.2 (Word.ofInt_lt _)
  | conj =>
    cases h
    exact Int.ofNat_lt.2 (Nat.and_lt_two_pow m hn)
  | disj =>
    cases h
    exact Int.ofNat_lt.2 (Nat.or_lt_two_pow hm hn)
  | div =>
    simp only [apply] at h
    split at h
    · cases h
    · cases h
      rw [Int.fdiv_eq_ediv_of_nonneg _ hy.1, ← Int.natCast_ediv]
      exact Int.ofNat_lt.2 (Nat.lt_of_le_of_lt (Nat.div_le_self m n) hm)
  | mod =>
    simp only [apply] at h
    split at h
    · cases h
    · cases h
      rw [Int.fmod_eq_emod_of_nonneg _ hy.1, ← Int.natCast_emod]
      exact Int.ofNat_lt.2 (Nat.lt_of_le_of_lt (Nat.mod_le m n) hm)
  | pow =>
    simp only [apply] at h
    split at h
    · rename_i r hr
      cases h
      exact Int.ofNat_lt.2 (Binary64.power_lt hr)
    · cases h
    · cases h
  | shiftRight =>
    have hshift : shift n (fun factor => (m : Int).fdiv factor) = .ok v := h
    refine shift_lt (fun factor => ?_) hshift
    rw [Int.fdiv_eq_ediv_of_nonneg _ (Int.natCast_nonneg factor), ← Int.natCast_ediv]
    exact Int.ofNat_lt.2 (Nat.lt_of_le_of_lt (Nat.div_le_self m _) hm)
  | shiftLeft =>
    have hshift : shift n (fun factor => Word.ofInt (m * factor)) = .ok v := h
    exact shift_lt (fun factor => Int.ofNat_lt.2 (Word.ofInt_lt _)) hshift

theorem OperatorSign.apply_lt {sign : OperatorSign} {x y v : Int} (hx : 0 ≤ x ∧ x < Word.modulus)
    (hy : 0 ≤ y ∧ y < Word.modulus) (h : sign.apply x y = .ok v) : v < Word.modulus := by
  cases sign with
  | known o => exact Operator.apply_lt hx hy h
  | unknown text => cases h

namespace Expr

variable {table : SymbolTable} {pending : Pending}

mutual

/-- Where the sizes of regions are words, so are all values. -/
theorem value_lt (hsizes : table.HasWordSizes) : ∀ {e : Expr} {v : Int},
    value table pending e = .ok v → v < Word.modulus
  | .integer .., v, h => by
    cases h
    exact Int.ofNat_lt.2 (Word.ofInt_lt _)
  | .float _ bits, v, h => by
    cases h
    exact Int.ofNat_lt.2 bits.toNat_lt
  | .name l n, v, h => by
    obtain ⟨s, -, rfl⟩ := nameValue_ok.1 h
    exact Int.ofNat_lt.2 (Word.ofInt_lt _)
  | .sizeof l target, v, h => by
    obtain ⟨l, t, rfl, rfl⟩ | ⟨l, n, first, address, rfl, hget⟩ := sizeofValue_ok.1 h
    · cases t <;> decide
    · exact (hsizes n first address v (SymbolTable.mem_entries_of_get? hget)).2
  | .apply l sign operands, v, h => by
    obtain ⟨first, second, rest, x, rfl, hfirst, hrest⟩ := value_apply.1 h
    exact applyAll_lt hsizes ⟨value_nonneg hsizes.hasSizes hfirst, value_lt hsizes hfirst⟩ hrest

theorem applyAll_lt (hsizes : table.HasWordSizes) : ∀ {es : List Expr} {sign : OperatorSign} {x v : Int},
    0 ≤ x ∧ x < Word.modulus → applyAll table pending sign x es = .ok v → v < Word.modulus
  | [], _, _, _, hx, h => by
    cases h
    exact hx.2
  | e :: es, sign, x, v, hx, h => by
    obtain ⟨y, r, hy, hr, hrest⟩ := applyAll_cons.1 h
    have hword : 0 ≤ y ∧ y < Word.modulus := ⟨value_nonneg hsizes.hasSizes hy, value_lt hsizes hy⟩
    exact applyAll_lt hsizes ⟨OperatorSign.apply_nonneg hx.1 hword.1 hr, OperatorSign.apply_lt hx hword hr⟩ hrest

end

end Expr

/-! ## Inlining -/

namespace Expr

mutual

/-- Put an expression in the places of a name. What `sizeof` is asked about is no value and stays. -/
def inline (name : String) (e : Expr) : Expr → Expr
  | .name l n => if n = name then e else .name l n
  | .apply l sign operands => .apply l sign (inlineAll name e operands)
  | .fill l value count => .fill l (inline name e value) (inline name e count)
  | .integer l v => .integer l v
  | .float l bits => .float l bits
  | .string l text => .string l text
  | .type l t => .type l t
  | .sizeof l target => .sizeof l target
  | .foreign l kind => .foreign l kind

def inlineAll (name : String) (e : Expr) : List Expr → List Expr
  | [] => []
  | x :: xs => inline name e x :: inlineAll name e xs

end

end Expr

/-- What a table with a constant and one without it have in common: the other names mean the same, and the constant is
the value that an expression has without it. -/
structure SymbolTable.Inlined (name : String) (e : Expr) (table table' : SymbolTable) : Prop where
  others : ∀ n, n ≠ name → table'.get? n = table.get? n
  constant : ∃ l w, table.get? name = some ⟨l, .constant w⟩ ∧
    ∀ pending, e.value table' pending = .ok (Word.ofInt w)

namespace Expr

variable {name : String} {e : Expr} {table table' : SymbolTable} {pending pending' : Pending}

mutual

/-- With its constant inlined, an expression has the same value. -/
theorem value_inline (h : table.Inlined name e table') : ∀ {x : Expr} {v : Int},
    value table pending x = .ok v → value table' pending' (inline name e x) = .ok v
  | .integer .., _, hv | .float .., _, hv => hv
  | .name l n, v, hv => by
    obtain ⟨s, hget, rfl⟩ := nameValue_ok.1 hv
    rw [inline]
    split
    · subst n
      obtain ⟨l', w, hconstant, he⟩ := h.constant
      obtain rfl := Option.some.inj (hget.symm.trans hconstant)
      exact he pending'
    · rename_i hne
      exact nameValue_ok.2 ⟨s, (h.others n hne).trans hget, rfl⟩
  | .sizeof l target, v, hv => by
    obtain htype | ⟨l', n, first, address, rfl, hget⟩ := sizeofValue_ok.1 hv
    · exact sizeofValue_ok.2 (.inl htype)
    · -- A constant has no size.
      have hne : n ≠ name := by
        rintro rfl
        obtain ⟨l', w, hconstant, -⟩ := h.constant
        simp [hconstant] at hget
      exact sizeofValue_ok.2 (.inr ⟨l', n, first, address, rfl, (h.others n hne).trans hget⟩)
  | .apply l sign operands, v, hv => by
    obtain ⟨first, second, rest, x, rfl, hfirst, hrest⟩ := value_apply.1 hv
    exact value_apply.2 ⟨_, _, _, x, rfl, value_inline h hfirst, applyAll_inline h hrest⟩

theorem applyAll_inline (h : table.Inlined name e table') : ∀ {xs : List Expr} {sign : OperatorSign} {x v : Int},
    applyAll table pending sign x xs = .ok v → applyAll table' pending' sign x (inlineAll name e xs) = .ok v
  | [], _, _, _, hv => hv
  | y :: ys, sign, x, v, hv => by
    obtain ⟨w, r, hw, hr, hrest⟩ := applyAll_cons.1 hv
    exact applyAll_cons.2 ⟨w, r, value_inline h hw, hr, applyAll_inline h hrest⟩

end

end Expr

namespace SymbolTable

variable {table table' : SymbolTable} {name n : String} {symbol : Symbol} {e : Expr}

/-- The constant has just been bound. -/
theorem Inlined.of_push {l : Option Location} {w : Nat} (hfree : table.get? name = none)
    (hvalue : ∀ pending, e.value table pending = .ok w) (hword : w < Word.modulus) :
    Inlined name e (table.push name ⟨l, .constant w⟩) table where
  others n hn := by rw [get?_push_of_free hfree, if_neg hn]
  constant := by
    refine ⟨l, w, ?_, fun pending => ?_⟩
    · rw [get?_push_of_free hfree, if_pos rfl]
    · rw [hvalue, Word.ofInt_natCast, Nat.mod_eq_of_lt hword]

theorem Inlined.ne (h : table.Inlined name e table') (hfree : table.get? n = none) : n ≠ name := by
  rintro rfl
  obtain ⟨l, w, hconstant, -⟩ := h.constant
  simp [hconstant] at hfree

theorem Inlined.free (h : table.Inlined name e table') (hfree : table.get? n = none) : table'.get? n = none :=
  (h.others n (h.ne hfree)).trans hfree

theorem Inlined.push (h : table.Inlined name e table') (hfree : table.get? n = none) :
    (table.push n symbol).Inlined name e (table'.push n symbol) where
  others k hk := by rw [get?_push_of_free hfree, get?_push_of_free (h.free hfree), h.others k hk]
  constant := by
    obtain ⟨l, w, hconstant, hvalue⟩ := h.constant
    refine ⟨l, w, ?_, fun pending => ?_⟩
    · rw [get?_push_of_free hfree, if_neg (h.ne hfree).symm, hconstant]
    · exact Expr.value_of_agrees (SymbolTable.Agrees.of_prefix (List.prefix_append _ _)) (hvalue pending)

end SymbolTable

namespace Assembly

/-- Nothing is rewritten, and the names that are known to come do not matter. -/
theorem keeps_id : Keeps id Eq where
  value h hv := Expr.value_of_agrees (fun _ _ hget => h ▸ hget) hv
  string _ _ := rfl
  fill _ _ _ := rfl
  free h hfree := h ▸ hfree
  push h _ := h ▸ rfl

theorem keeps_inline (name : String) (e : Expr) : Keeps (Expr.inline name e) (SymbolTable.Inlined name e) where
  value h hv := Expr.value_inline h hv
  string _ _ := by rw [Expr.inline]
  fill _ _ _ := by rw [Expr.inline]
  free h hfree := h.free hfree
  push h hfree := h.push hfree

/-! ## First pass -/

/-- Where no name is declared twice, no label has the name of another label or of a constant or region. -/
theorem labels_of_declared_nodup {ss : List Statement} (h : (ss.filterMap Statement.declared?).Nodup) :
    (ss.filterMap Statement.labelName?).Nodup ∧
      ∀ n ∈ ss.filterMap Statement.labelName?, n ∉ ss.filterMap Statement.lateName? := by
  have hlabels : ∀ {list : List Statement} {n : String}, n ∈ list.filterMap Statement.labelName? →
      n ∈ list.filterMap Statement.declared? := by
    intro list n hn
    obtain ⟨s, hs, hlabel⟩ := List.mem_filterMap.1 hn
    refine List.mem_filterMap.2 ⟨s, hs, ?_⟩
    cases s <;> simp_all [Statement.labelName?, Statement.declared?]
  have hlate : ∀ {list : List Statement} {n : String}, n ∈ list.filterMap Statement.lateName? →
      n ∈ list.filterMap Statement.declared? := by
    intro list n hn
    obtain ⟨s, hs, hname⟩ := List.mem_filterMap.1 hn
    exact List.mem_filterMap.2 ⟨s, hs, Statement.declared?_of_lateName? hname⟩
  induction ss with
  | nil => simp
  | cons s rest ih =>
    cases s with
    | label l name =>
      obtain ⟨hname, hrest⟩ := List.nodup_cons.1 h
      obtain ⟨hnodup, hdisjoint⟩ := ih hrest
      refine ⟨List.nodup_cons.2 ⟨fun hmem => hname (hlabels hmem), hnodup⟩, ?_⟩
      rintro n hn hmem
      rcases List.mem_cons.1 hn with rfl | hn
      · exact hname (hlate hmem)
      · exact hdisjoint n hn hmem
    | constant l name e | region l name type es | embedding l name path =>
      obtain ⟨hname, hrest⟩ := List.nodup_cons.1 h
      obtain ⟨hnodup, hdisjoint⟩ := ih hrest
      refine ⟨hnodup, ?_⟩
      rintro n hn hmem
      rcases List.mem_cons.1 hmem with rfl | hmem
      · exact hname (hlabels hn)
      · exact hdisjoint n hn hmem
    | instruction | foreign => exact ih h

theorem bindLabels_of_nodup {ss : List Statement} (h : (ss.filterMap Statement.declared?).Nodup) (j : Journal) :
    ∃ count, bindLabels 0 [] ss { journal := j } =
      .ok count (grow { journal := j } { entries := labelEntries 0 ss }) := by
  obtain ⟨hnodup, hdisjoint⟩ := labels_of_declared_nodup h
  exact ⟨_, bindLabels_of_distinct hnodup hdisjoint (fun _ _ => rfl) fun _ _ => rfl⟩

theorem labelEntries_rewrite (f : Expr → Expr) (address : Nat) (ss : List Statement) :
    labelEntries address (ss.map (Statement.rewrite f)) = labelEntries address ss := by
  induction ss generalizing address with
  | nil => rfl
  | cons s rest ih => cases s <;> simp [Statement.rewrite, labelEntries, ih]

/-! ## Both passes -/

/-- A pass over statements in sequence goes through the first of them and then through the others. -/
theorem processAll_append_ok {env : Surroundings} {pending : Pending} {done rest : List Statement} {a c : Assembly}
    (h : processAll env pending (done ++ rest) a = .ok () c) :
    ∃ b, processAll env pending done a = .ok () b ∧ processAll env pending rest b = .ok () c := by
  induction done generalizing a with
  | nil => exact ⟨a, rfl, h⟩
  | cons s done ih =>
    rw [List.cons_append, processAll] at h
    obtain ⟨_, b, hs, hrest⟩ := exists_of_bind_eq_ok h
    obtain ⟨d, hdone, hafter⟩ := ih hrest
    exact ⟨d, by rw [processAll, bind_of_ok hs]; exact hdone, hafter⟩

/-- Where the memory is not too large for words, no region is. -/
theorem LaidOut.hasWordSizes {a : Assembly} (h : a.LaidOut) (hmemory : a.memory.length < Word.modulus) :
    a.symbols.HasWordSizes := by
  intro name l address size hmem
  have hregion : (address, size) ∈ a.symbols.regions := List.mem_filterMap.2 ⟨_, hmem, rfl⟩
  have hle : size ≤ (a.symbols.regions.map Prod.snd).sum := by
    refine List.single_le_sum ?_ size (List.mem_map_of_mem hregion)
    rintro _ hx
    obtain ⟨r, hr, rfl⟩ := List.mem_map.1 hx
    exact h.sizes r hr
  rw [h.total] at hle
  exact ⟨h.sizes _ hregion, Int.lt_of_le_of_lt hle (Int.ofNat_lt.2 hmemory)⟩

variable {settings : AssemblySettings} {before after : List Statement} {l : Option Location} {name file : String}
  {e : Expr}

/-- The second pass without the constant keeps up with the second pass with it. -/
theorem processAll_inline {env : Surroundings} {pending : Pending} (pending' : Pending) {a a' b : Assembly}
    (hfollows : Follows Eq a a') (hlaidOut : a.LaidOut)
    (h : processAll env pending (before ++ .constant l name e :: after) a = .ok () b) (hclean : b.errors = a.errors)
    (hmemory : b.memory.length < Word.modulus) :
    ∃ b', processAll env pending' (before ++ after.map (Statement.rewrite (Expr.inline name e))) a' = .ok () b' ∧
      Follows (SymbolTable.Inlined name e) b b' := by
  obtain ⟨c, hbefore, hrest⟩ := processAll_append_ok h
  obtain ⟨hsteps, hle, -⟩ := (processAll_leads env pending before a).at_ok hbefore
  obtain ⟨hsteps', hle', -⟩ := (processAll_leads env pending _ c).at_ok hrest
  -- Before the constant nothing is rewritten.
  obtain ⟨c', hbefore', hmid⟩ := processAll_tracks keeps_id pending' hfollows hbefore (by omega)
  rw [Statement.map_rewrite_id] at hbefore'
  obtain ⟨d, hconstant, hafter, hsame⟩ := processAll_cons_of_clean hrest (by omega)
  obtain ⟨g, heffect, hquiet⟩ := (process_leads env pending _ c).at_ok hconstant
  obtain ⟨w, hfree, hword, rfl⟩ : ∃ w : Nat, c.symbols.get? name = none ∧ e.word? c.symbols = some w ∧
      g = { entries := [(name, ⟨l, .constant w⟩)] } := by
    cases heffect with
    | constant hfree hword => exact ⟨_, hfree, hword, rfl⟩
  have hsizes : c.symbols.HasWordSizes := by
    have hbegin := List.IsPrefix.length_le (Steps.extends hsteps').memory
    exact (hlaidOut.steps hsteps).hasWordSizes (by omega)
  have hvalue := Expr.value_of_word? hsizes.hasSizes hword
  have hbound : Follows (SymbolTable.Inlined name e) d c' := by
    have hinlined := SymbolTable.Inlined.of_push (l := l) hfree hvalue (Int.ofNat_lt.1 (Expr.value_lt hsizes (hvalue [])))
    refine ⟨?_, ?_, ?_, ?_, ?_⟩
    · rw [hquiet.symbols, hmid.symbols.symm]
      exact hinlined
    · rw [hquiet.entryPoint, hmid.entryPoint, grow_entryPoint]
    · rw [hquiet.memory, hmid.memory, grow_memory, List.append_nil]
    · rw [hquiet.records, hmid.records, grow_records, List.append_nil]
    · rw [hmid.errors, hsame]
  obtain ⟨b', hafter', hend⟩ := processAll_tracks (keeps_inline name e) pending' hbound hafter (by omega)
  exact ⟨b', (Call.processAll_append hbefore' _).trans hafter', hend⟩

/-- If a program yields an image with fewer than `2 ^ 64` bytes of memory, then it yields the same image without one of
its constants, when the expression of the constant is put in the places of its name in the statements behind it. -/
theorem compile_inline {j : Journal} {image : Image} {a : Assembly}
    (h : compile settings ⟨before ++ .constant l name e :: after, file⟩ { journal := j } = .ok (some image) a)
    (hmemory : image.memory.length < 2 ^ 64) :
    ∃ a', compile settings ⟨before ++ after.map (Statement.rewrite (Expr.inline name e)), file⟩ { journal := j } =
      .ok (some image) a' := by
  have hnodup := declared_nodup h
  obtain ⟨ready, b, hresolve, hgenerate⟩ := exists_of_bind_eq_ok h
  obtain ⟨hsteps, -, hresolved⟩ := (resolve_leads settings _ _).at_ok hresolve
  cases ready with
  | false => cases hgenerate
  | true =>
    obtain ⟨⟨hzero, hzero'⟩, hsymbols, ⟨hmemory', hrecords⟩, l', index, hentry, hpoint⟩ := hresolved rfl
    obtain ⟨_, c, hprocess, hconclude⟩ := exists_of_bind_eq_ok (hgenerate : generate settings _ b = _)
    obtain ⟨hquiet, himage⟩ := (conclude_leads c).at_ok hconclude
    obtain ⟨hclean, himage⟩ := himage image rfl
    -- The first pass binds the same labels.
    have hlabels : labelEntries 0 (before ++ after.map (Statement.rewrite (Expr.inline name e))) =
        labelEntries 0 (before ++ .constant l name e :: after) := by
      simp only [labelEntries_append, labelEntries_rewrite, labelEntries]
    have hdeclared : ((before ++ after.map (Statement.rewrite (Expr.inline name e))).filterMap
        Statement.declared?).Nodup := by
      rw [List.filterMap_append, Statement.filterMap_rewrite (fun s => by cases s <;> rfl), ← List.filterMap_append]
      exact hnodup.sublist ((List.Sublist.append_left (List.sublist_cons_self _ _) _).filterMap _)
    obtain ⟨count, hbind⟩ := bindLabels_of_nodup hdeclared j
    rw [hlabels] at hbind
    obtain ⟨b', hresolve', hbound⟩ : ∃ b', resolve settings
        ⟨before ++ after.map (Statement.rewrite (Expr.inline name e)), file⟩ { journal := j } = .ok true b' ∧
        Follows Eq b b' :=
      ⟨_, resolve_of_bindLabels hbind (hsymbols ▸ hentry) (errors_eq_zero_iff.2 hzero), hsymbols, hpoint.symm,
        hmemory'.symm, hrecords.symm, hzero.trans hzero'.symm⟩
    have hshort : c.memory.length < Word.modulus := by
      rw [himage, hquiet.memory] at hmemory
      exact hmemory
    obtain ⟨c', hprocess', hend⟩ := processAll_inline
      (declarations (before ++ after.map (Statement.rewrite (Expr.inline name e)))) hbound
      ((laidOut_empty j).steps hsteps) hprocess (hclean.trans hzero'.symm) hshort
    have hclean' : c'.journal.diagnostics.happened = false := errors_eq_zero_iff.2 (hend.errors.trans hclean)
    have hsame : image = { memory := c'.memory, records := c'.records, entryPoint := c'.entryPoint.getD 0 } := by
      rw [himage, hquiet.memory, hquiet.records, hquiet.entryPoint, hend.memory, hend.records, hend.entryPoint]
    have hrun : compile settings ⟨before ++ after.map (Statement.rewrite (Expr.inline name e)), file⟩
        { journal := j } = conclude c' := by
      rw [compile, bind_of_ok hresolve', if_pos rfl, generate_eq, bind_of_ok hprocess']
    exact ⟨_, hrun.trans (hsame ▸ conclude_of_clean hclean')⟩

/-- The constant is the size of a region and is stored in another region, pushed and used as the count of a fill. -/
theorem compile_inline_size :
    let settings : AssemblySettings := ⟨⟨{}, []⟩, "entry"⟩
    let name (n : String) : Expr := .name none n
    let size : Expr := .sizeof none (.name none "v")
    let before : List Statement :=
      [.label none "entry", .region none "v" .i16 [.integer none 5, .integer none 6]]
    let after : List Statement :=
      [.region none "w" .byte [.fill none (.integer none 9) (name "k"), name "k"],
        .instruction none "psh" (some (.apply none (.known .mul) [name "k", name "k"]))]
    let inlined : List Statement :=
      [.region none "w" .byte [.fill none (.integer none 9) size, size],
        .instruction none "psh" (some (.apply none (.known .mul) [size, size]))]
    let image : Image := { memory := [0, 5, 0, 6, 9, 9, 9, 9, 4], records := [⟨0x10, 16⟩], entryPoint := 0 }
    (∃ a, compile settings ⟨before ++ .constant none "k" size :: after, "a.avm"⟩ { journal := {} } =
      .ok (some image) a) ∧ image.memory.length < 2 ^ 64 ∧
      ∃ a, compile settings ⟨before ++ inlined, "a.avm"⟩ { journal := {} } = .ok (some image) a := by
  intro settings name size before after inlined image
  have hcompile : ∃ a, compile settings ⟨before ++ .constant none "k" size :: after, "a.avm"⟩ { journal := {} } =
      .ok (some image) a := ⟨_, rfl⟩
  have hmemory : image.memory.length < 2 ^ 64 := by decide
  have hinlined : after.map (Statement.rewrite (Expr.inline "k" size)) = inlined := by
    simp [after, inlined, name, size, Statement.rewrite, Expr.inline, Expr.inlineAll]
  obtain ⟨a, ha⟩ := hcompile
  obtain ⟨a', ha'⟩ := compile_inline ha hmemory
  rw [hinlined] at ha'
  exact ⟨⟨a, ha⟩, hmemory, a', ha'⟩

end Assembly

end AvmAssembler
