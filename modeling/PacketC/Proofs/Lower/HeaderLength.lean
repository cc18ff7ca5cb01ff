import PacketC.Proofs.Lists.Fit

/-! The length of a header with a field of variable width. It is what the other fields take and what
the field holds; the first is written as a number, the width of the whole header without the most
that the field can hold. -/

namespace PacketC

/-! ### Widths of fields -/

namespace Field

variable {fs : List Field} {f : Field}

theorem totalSize_filter (p : Field → Bool) (fs : List Field) :
    totalSize (fs.filter fun f => !p f) + totalSize (fs.filter p) = totalSize fs := by
  induction fs with
  | nil => rfl
  | cons f rest ih => cases hp : p f <;> simp [hp, totalSize] <;> omega

theorem size_le_totalSize (h : f ∈ fs) : f.size ≤ totalSize fs := by
  induction h with
  | head => exact Nat.le_add_right ..
  | tail _ _ ih => exact Nat.le_trans ih (Nat.le_add_left ..)

/-- A field that is the only one of its kind, by its place. -/
theorem filter_eq_singleton {p : Field → Bool} {i : Nat} (hf : fs[i]? = some f) (hp : p f = true)
    (honly : ∀ (j : Nat) g, fs[j]? = some g → p g = true → j = i) : fs.filter p = [f] := by
  induction fs generalizing i with
  | nil => cases hf
  | cons g rest ih =>
    cases i with
    | zero =>
      cases hf
      have hrest : rest.filter p = [] := List.filter_eq_nil_iff.2 fun x hx hpx => by
        obtain ⟨j, hj⟩ := List.mem_iff_getElem?.1 hx
        exact absurd (honly (j + 1) x hj hpx) (by omega)
      rw [List.filter_cons_of_pos hp, hrest]
    | succ i =>
      have hg : ¬p g = true := fun hpg => absurd (honly 0 g rfl hpg) (by omega)
      rw [List.filter_cons_of_neg hg]
      exact ih hf fun j x hx hpx => Nat.succ.inj (honly (j + 1) x hx hpx)

end Field

theorem TypeDecl.fixedBitWidth_add (t : TypeDecl) :
    t.fixedBitWidth + Field.totalSize (t.fields.filter Field.isVarWidth) = t.bitWidth :=
  Field.totalSize_filter Field.isVarWidth t.fields

namespace Lower

/-! ### The length of a header -/

/-- The lines that set the length of a header from what its field of variable width holds. -/
def lengthUpdate (header : String) (fixed : Nat) : List String :=
  [s!"pd->headers[{header}].var_width_field_bitwidth = get_var_width_bitwidth(pstate);",
    s!"pd->headers[{header}].length = " ++
      s!"({fixed} + pd->headers[{header}].var_width_field_bitwidth)/8;"]

/-- A store to a wide field comes after what sets the length of its header. -/
theorem exists_of_wide_assign {env : Env} {recur : Recur} {left right : ExprId} {dst : Expr}
    {ref : FieldRef} {l : PacketField} {s u : State} {text : String}
    (hdst : env.At left dst) (href : dst.fieldRef? = some ref)
    (hl : env.program.packetField ref = .ok l) (hw : 32 < l.width)
    (h : assign recur left right env s = (.ok text, u)) :
    ∃ rest, text = Text.unlines (lengthLines l ++ rest) := by
  rw [assign, bind_of_pure (look_of_ok hdst)] at h
  obtain ⟨src, s₁, -, h⟩ := exists_of_bind h
  rw [href] at h
  dsimp only at h
  rw [bind_of_pure (look_of_ok hl), if_neg (by omega)] at h
  obtain ⟨source, s₂, -, h⟩ := exists_of_bind h
  obtain ⟨trace, s₃, -, h⟩ := exists_of_bind h
  cases h
  exact ⟨_, rfl⟩

/-- No field is wider than its header, so what the other fields take can be written as a difference.
An assignment to a field of variable width above 32 bits writes it; where the field is the only one
of its kind, it is what the fields of fixed width take. The two kinds together make up every
type. -/
theorem header_lengths_sound {p : Program} (hvalid : p.validate = .ok ()) :
    (∀ t : TypeDecl,
      t.fixedBitWidth + Field.totalSize (t.fields.filter Field.isVarWidth) = t.bitWidth) ∧
    ∀ left dst ref, p.expr left = .ok dst → dst.fieldRef? = some ref →
      ∃ i t f, p.header ref.header = .ok i ∧ p.typeDecl i.headerType = .ok t ∧
        t.fields[ref.field.toNat]? = some f ∧ f.size ≤ t.bitWidth ∧
        (f.isVarWidth = true → 32 < f.size → ∀ env : Env, env.program = p → ∀ right s text u,
          statement expr (.assign left right) env s = (.ok text, u) →
          ∃ rest, text = Text.unlines (lengthUpdate
            (if i.isMetadata then Target.allMetadata else Target.headerInstance i.name)
            (t.bitWidth - f.size) ++ rest)) ∧
        (f.isVarWidth = true →
          (∀ (j : Nat) g, t.fields[j]? = some g → g.isVarWidth = true → j = ref.field.toNat) →
          t.bitWidth - f.size = t.fixedBitWidth) := by
  refine ⟨TypeDecl.fixedBitWidth_add, fun left dst ref hdst href => ?_⟩
  obtain ⟨i, t, f, hi, ht, hf⟩ := (Program.WellFormed.of_validate hvalid).resolves hdst href
  refine ⟨i, t, f, Program.lookup_eq_ok_iff.2 hi, Program.lookup_eq_ok_iff.2 ht, hf,
    Field.size_le_totalSize (List.mem_of_getElem? hf), ?_, fun hvar honly => ?_⟩
  · rintro hvar hwide env rfl right s text u h
    rw [statement] at h
    obtain ⟨rest, rfl⟩ := exists_of_wide_assign hdst href (packetField_of_ok hi ht hf) hwide h
    exact ⟨rest, by simp only [lengthLines, hvar, if_true, lengthUpdate]⟩
  · have hsum := t.fixedBitWidth_add
    have hone : Field.totalSize (t.fields.filter Field.isVarWidth) = f.size := by
      rw [Field.filter_eq_singleton hf hvar honly]
      exact Nat.add_zero _
    omega

/-- Of 88 bits, 64 can vary. -/
theorem halfBytes_length : halfBytes.validate = .ok () ∧ ∃ text u rest,
    statement expr (.assign ⟨7⟩ ⟨7⟩) ⟨⟨halfBytes, .standard, .empty⟩, none⟩ ⟨.empty, .empty⟩ =
      (.ok text, u) ∧
    text = Text.unlines (lengthUpdate (Target.headerInstance "h") 24 ++ rest) := by
  obtain ⟨i, t, f, hi, ht, hf, -, hwrites, hfixed⟩ :=
    (header_lengths_sound (p := halfBytes) rfl).2 ⟨7⟩ _ _ rfl rfl
  cases hi
  cases ht
  cases hf
  have honly := hfixed rfl (by rintro (_ | _ | _ | _ | j) g ⟨⟩ ⟨⟩; rfl)
  obtain ⟨rest, hrest⟩ := hwrites rfl (by decide) ⟨⟨halfBytes, .standard, .empty⟩, none⟩ rfl ⟨7⟩
    ⟨.empty, .empty⟩ _ _ rfl
  rw [honly] at hrest
  exact ⟨rfl, _, _, rest, rfl, hrest⟩

end Lower

end PacketC
