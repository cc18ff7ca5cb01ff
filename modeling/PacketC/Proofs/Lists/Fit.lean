import PacketC.Proofs.Lists.Once

/-! Lists whose copies fit their buffer. Each copy is as long as the bytes of its run, and begins
behind the bytes that hold all bits before it, so two runs that share a byte in this count overlap,
or the last one reaches beyond the buffer. The copies fit just if the bytes of the runs add up to
the size of the buffer. -/

namespace PacketC

open Code

/-- The bytes that a copy writes to, where the code is told the given widths. -/
def Copy.stretchAt (widths : String → Nat) (c : Copy) : Stretch :=
  ⟨c.offset.bytesAt widths, c.width.bytesAt widths⟩

/-- What the code computes for the place and the length of a copy. -/
def Copy.CountsAt (widths : String → Nat) (c : Copy) : Prop :=
  countAt widths c.offset.bytes = some (c.stretchAt widths).start ∧
    countAt widths c.width.bytes = some (c.stretchAt widths).length

/-- Widths are numbers of 32 bits. -/
theorem Field.size_lt (f : Field) : f.size < UInt32.size := by
  unfold size Ty.width
  split
  · exact UInt32.toNat_lt_size _
  · exact UInt32.toNat_lt_size _
  · decide

namespace Program

variable (p : Program) (widths : String → Nat)

/-- The width of a field when the code runs. -/
def widthAt (ref : FieldRef) : Nat :=
  if (p.fieldOf ref).isVarWidth then widths (widthText (p.fieldName ref))
  else (p.fieldOf ref).size

/-- The widths of the runs that a list is copied in. -/
def runWidths (items : List ExprId) : List Nat :=
  (p.listRuns items).map fun run => (run.refs.map (p.widthAt widths)).sum

variable {p}

/-- The bits that are known before the code runs: those of the fields of fixed width. -/
def fixedWidth (p : Program) (refs : List FieldRef) : Nat :=
  (refs.map fun ref => if (p.fieldOf ref).isVarWidth then 0 else (p.fieldOf ref).size).sum

/-- The count is exact, as far as it is known before the code runs. -/
def Knows (c : BitCount) (fixed bits : Nat) : Prop := c.fixed.toNat = fixed ∧ c.bitsAt widths = bits

variable {widths}

theorem Knows.add {a b : BitCount} {m n k l : Nat} (ha : Knows widths a m k)
    (hb : Knows widths b n l) (h : m + n < UInt32.size) :
    Knows widths (a.add b) (m + n) (k + l) := by
  obtain ⟨rfl, rfl⟩ := ha
  obtain ⟨rfl, rfl⟩ := hb
  exact ⟨(UInt32.toNat_add _ _).trans (Nat.mod_eq_of_lt h), BitCount.bitsAt_add widths h⟩

theorem knows_fieldBits (ref : FieldRef) : Knows widths (p.fieldBits ref)
    (if (p.fieldOf ref).isVarWidth then 0 else (p.fieldOf ref).size) (p.widthAt widths ref) := by
  have hsize : (UInt32.ofNat (p.fieldOf ref).size).toNat = (p.fieldOf ref).size :=
    UInt32.toNat_ofNat_of_lt' (p.fieldOf ref).size_lt
  rw [fieldBits, widthAt]
  cases h : (p.fieldOf ref).isVarWidth with
  | true =>
    rw [BitCount.ofField_of_varWidth h]
    exact ⟨rfl, Nat.zero_add _⟩
  | false =>
    rw [BitCount.ofField_of_fixed h]
    exact ⟨hsize, hsize⟩

theorem knows_sum_fieldBits (refs : List FieldRef) (h : p.fixedWidth refs < UInt32.size) :
    Knows widths (.sum (refs.map p.fieldBits)) (p.fixedWidth refs)
      (refs.map (p.widthAt widths)).sum := by
  induction refs with
  | nil => exact ⟨rfl, rfl⟩
  | cons ref refs ih =>
    rw [fixedWidth, List.map_cons, List.sum_cons] at h
    exact (knows_fieldBits ref).add (ih (Nat.lt_of_le_of_lt (Nat.le_add_left _ _) h)) h

/-- The copies go to the stretches for their runs, which the code computes if it can ask for the
widths. -/
theorem map_stretchAt_copies {offset : BitCount} {runs : List FieldSpan} {n k : Nat}
    (hoffset : Knows widths offset n k)
    (h : n + (runs.map fun run => p.fixedWidth run.refs).sum + 7 < UInt32.size) :
    (p.copies offset runs).map (Copy.stretchAt widths) = Stretch.ofWidths k
        (runs.map fun run => (run.refs.map (p.widthAt widths)).sum) ∧
      (offset.Named → (∀ run ∈ runs, (p.runBits run).Named) →
        ∀ c ∈ p.copies offset runs, c.CountsAt widths) := by
  induction runs generalizing offset n k with
  | nil => exact ⟨rfl, fun _ _ => nofun⟩
  | cons run runs ih =>
    rw [List.map_cons, List.sum_cons] at h
    have hrun : Knows widths (p.runBits run) _ _ := knows_sum_fieldBits run.refs (by omega)
    obtain ⟨hrest, hcounts⟩ := ih (hoffset.add hrun (by omega)) (by omega)
    obtain ⟨rfl, rfl⟩ := hoffset
    refine ⟨?_, fun hnamed hruns => ?_⟩
    · rw [copies, List.map_cons, hrest, List.map_cons, Stretch.ofWidths, Copy.stretchAt,
        BitCount.bytesAt, BitCount.bytesAt, hrun.2]
    · obtain ⟨hfirst, hruns⟩ := List.forall_mem_cons.1 hruns
      refine List.forall_mem_cons.2 ⟨⟨?_, ?_⟩, hcounts (hnamed.add hfirst) hruns⟩
      · exact (hnamed.counts_bytes widths (by omega)).countAt_eq
      · exact (hfirst.counts_bytes widths (by rw [hrun.1]; omega)).countAt_eq

theorem bytesAt_listBits {items : List ExprId}
    (h : p.fixedWidth (p.fieldItems items) < UInt32.size) :
    (p.listBits items).bytesAt widths = wholeBytes (p.runWidths widths items).sum := by
  have hmax := FieldSpan.isMaximal_partition (p.fieldItems items)
  rw [BitCount.bytesAt, listBits, (knows_sum_fieldBits _ h).2, hmax.sum_map]
  rfl

/-! ### Names in the counts -/

/-- The name of a field's instance can be asked for if it is a word. -/
theorem label_fieldName {ref : FieldRef} (h : IsWord (p.fieldName ref)) :
    Label (p.fieldName ref) := by
  unfold fieldName Target.fieldInstance at h ⊢
  rw [String.append_assoc, String.append_assoc] at h ⊢
  have hchars := h.chars
  rw [String.toList_append, List.all_append, Bool.and_eq_true] at hchars
  exact Label.append (by decide) (by decide) hchars.2

theorem named_sum_fieldBits {refs : List FieldRef}
    (h : ∀ ref ∈ refs, IsWord (p.fieldName ref)) : (BitCount.sum (refs.map p.fieldBits)).Named := by
  induction refs with
  | nil => exact nofun
  | cons ref refs ih =>
    refine BitCount.Named.add (fun t ht => ?_) (ih fun r hr => h r (.tail ref hr))
    refine ⟨_, label_fieldName (h ref (.head refs)), ?_⟩
    cases hvar : (p.fieldOf ref).isVarWidth with
    | true =>
      rw [fieldBits, BitCount.ofField_of_varWidth hvar] at ht
      exact List.mem_singleton.1 ht
    | false =>
      rw [fieldBits, BitCount.ofField_of_fixed hvar] at ht
      cases ht

end Program

namespace Lower

/-- The code of a list's buffer computes where its copies go and how long they are from the widths
that it is told, as long as the bits that are known before can be counted with 32 bits. They stay
inside the buffer and do not overlap if and only if the bytes of the runs, each rounded up by
itself, add up to the bytes that hold all bits. -/
theorem copies_fit_iff (p : Program) (hv : p.validate = .ok ()) (id : ExprId) (e : Expr)
    (he : p.expr id = .ok e) (items : List ExprId) (hnode : e.node = .list items) (env : Env)
    (henv : env.program = p) (m : Memory) (hnew : id ∉ m.generated) (mode : Mode)
    (emission : Emission) (hfits : p.fixedWidth (p.fieldItems items) + 7 < UInt32.size) :
    ∃ (name : String) (m' : Memory) (copies : List Copy) (total : BitCount),
      m.names.named "buffer" id.text = (name, m'.names) ∧
      expr id mode env ⟨m, emission⟩ = (.ok (bufferValue name),
        ⟨m', emission.prepend (assemblyText name total.bytes (copies.map (Copy.text name)))⟩) ∧
      ∀ widths : String → Nat,
        ((∀ ref ∈ p.fieldItems items, IsWord (p.fieldName ref)) →
          countAt widths total.bytes = some (total.bytesAt widths : Int) ∧
            ∀ c ∈ copies, c.CountsAt widths) ∧
        total.bytesAt widths = wholeBytes (p.runWidths widths items).sum ∧
        copies.map (Copy.stretchAt widths) = Stretch.ofWidths 0 (p.runWidths widths items) ∧
        (Stretch.Fits (copies.map (Copy.stretchAt widths)) (total.bytesAt widths) ↔
          ((p.runWidths widths items).map wholeBytes).sum =
            wholeBytes (p.runWidths widths items).sum) := by
  have wf := Program.WellFormed.of_validate hv
  subst henv
  have hmax := FieldSpan.isMaximal_partition (env.program.fieldItems items)
  refine ⟨_, ⟨_, _, _⟩, env.program.listCopies items, env.program.listBits items, rfl,
    expr_list_of_not_mem env wf he hnode hnew mode emission, fun widths => ?_⟩
  have hlt : env.program.fixedWidth (env.program.fieldItems items) < UInt32.size := by omega
  have htotal : (env.program.listBits items).bytesAt widths = _ := Program.bytesAt_listBits hlt
  have hempty : Program.Knows widths .empty 0 0 := ⟨rfl, rfl⟩
  have hsum : env.program.fixedWidth (env.program.fieldItems items) = _ := hmax.sum_map _
  rw [hsum, ← Nat.zero_add (List.sum _)] at hfits
  obtain ⟨hcopies, hcounts⟩ : (env.program.listCopies items).map (Copy.stretchAt widths) =
      Stretch.ofWidths 0 (env.program.runWidths widths items) ∧ _ :=
    Program.map_stretchAt_copies hempty hfits
  refine ⟨fun hwords => ⟨?_, ?_⟩, htotal, hcopies, ?_⟩
  · have hknows : Program.Knows widths _ _ _ := Program.knows_sum_fieldBits _ hlt
    refine ((Program.named_sum_fieldBits hwords).counts_bytes widths ?_).countAt_eq
    rwa [hknows.1, hsum, ← Nat.zero_add (List.sum _)]
  · exact hcounts nofun fun run hrun => Program.named_sum_fieldBits fun ref href =>
      hwords ref (hmax.mem_of_mem_refs hrun href)
  · rw [htotal, hcopies]
    exact Stretch.fits_ofWidths_iff _

/-- Lists of fields of two headers: of four bits each, of four, twelve and eight bits, and of a
variable width and four bits. -/
def halfBytes : Program where
  exprs := #[.packet, .packetHeader, ⟨⟨2⟩, .header ⟨0⟩, .member ⟨⟨0⟩, "g", some ⟨1⟩, none⟩⟩,
    .packetField 3 (.bits 4 false) "a" 0,
    ⟨⟨4⟩, .bits 4 false, .member ⟨⟨2⟩, "a", none, some ⟨⟨1⟩, 0⟩⟩⟩,
    ⟨⟨5⟩, .bits 12 false, .member ⟨⟨2⟩, "b", none, some ⟨⟨1⟩, 1⟩⟩⟩,
    .packetField 6 (.bits 8 false) "c" 2, .packetField 7 (.varbits 64) "v" 3, .list 8 [⟨3⟩, ⟨4⟩],
    .list 9 [⟨3⟩, ⟨5⟩, ⟨6⟩], .list 10 [⟨7⟩, ⟨4⟩]]
  typeDecls := #[⟨"t", .header [⟨"a", .bits 4 false⟩, ⟨"b", .bits 12 false⟩, ⟨"c", .bits 8 false⟩,
    ⟨"v", .varbits 64⟩]⟩]
  headers := #[⟨"h", ⟨0⟩, false⟩, ⟨"g", ⟨0⟩, false⟩]

/-- Behind a field of variable width, four bits fit if it has whole bytes, and reach beyond the
buffer if it ends with half a byte. -/
theorem halfBytes_fit : halfBytes.validate = .ok () ∧
    ∃ (name : String) (t : State) (copies : List Copy) (total : BitCount),
      expr ⟨10⟩ .value ⟨⟨halfBytes, .standard, .empty⟩, none⟩ ⟨.empty, .empty⟩ =
        (.ok (bufferValue name), t) ∧
      t.emission = Emission.empty.prepend
        (assemblyText name total.bytes (copies.map (Copy.text name))) ∧
      (∀ c ∈ copies, c.CountsAt fun _ => 8) ∧
      Stretch.Fits (copies.map (Copy.stretchAt fun _ => 8)) (total.bytesAt fun _ => 8) ∧
      ¬Stretch.Fits (copies.map (Copy.stretchAt fun _ => 12)) (total.bytesAt fun _ => 12) := by
  obtain ⟨name, m, copies, total, -, hrun, hat⟩ :=
    copies_fit_iff halfBytes rfl ⟨10⟩ _ rfl _ rfl ⟨⟨halfBytes, .standard, .empty⟩, none⟩ rfl .empty
      nofun .value .empty (by decide)
  obtain ⟨hcounts, -, -, hfits⟩ := hat fun _ => 8
  obtain ⟨-, -, -, hfits'⟩ := hat fun _ => 12
  refine ⟨rfl, name, _, copies, total, hrun, rfl, (hcounts (by decide)).2, hfits.2 (by decide), ?_⟩
  exact mt hfits'.1 (by decide)

/-- The second of two half bytes is copied behind the end of the buffer, and the twelve bits behind
four are copied over the eight bits behind them. -/
theorem halfBytes_overrun : halfBytes.validate = .ok () ∧
    halfBytes.assembly ⟨8⟩ "b" = some ("int b_size = 1;\nuint8_t b[b_size];\n" ++
      "memcpy(b + 0, field_desc(pd, field_instance_h_a).byte_addr, 1);\n" ++
      "memcpy(b + 1, field_desc(pd, field_instance_g_a).byte_addr, 1);") ∧
    ¬Stretch.Fits [⟨0, 1⟩, ⟨1, 1⟩] 1 ∧
    halfBytes.assembly ⟨9⟩ "b" = some ("int b_size = 3;\nuint8_t b[b_size];\n" ++
      "memcpy(b + 0, field_desc(pd, field_instance_h_a).byte_addr, 1);\n" ++
      "memcpy(b + 1, field_desc(pd, field_instance_g_b).byte_addr, 2);\n" ++
      "memcpy(b + 2, field_desc(pd, field_instance_h_c).byte_addr, 1);") ∧
    ¬Stretch.Fits [⟨0, 1⟩, ⟨1, 2⟩, ⟨2, 1⟩] 3 := by
  refine ⟨rfl, by decide +kernel, fun h => ?_, by decide +kernel, fun h => ?_⟩
  · exact absurd h.sum_le (by decide)
  · exact absurd h.sum_le (by decide)

end Lower

end PacketC
