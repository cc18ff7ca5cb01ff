import PacketC.Persist.Program
import PacketC.Proofs.Persist.Codec

/-! Programs survive being written and read again. -/

namespace PacketC

/-! ### Handles and types -/

theorem Handle.codec {arena : Arena} : Codec (@Handle.toJson arena) Handle.ofJson where
  plain h := Json.plain_nat h.index
  ne_null := nofun
  faithful {h d} hd := by
    rw [Handle.ofJson, Handle.toJson, Handle.index, Codec.uint32.faithful hd, Option.map_some]
  depth_le _ := Nat.zero_le _

@[simp] theorem Handle.depth_toJson {arena : Arena} (h : Handle arena) : h.toJson.depth = 0 := (rfl)

namespace Ty

theorem ofJson_text (d : Nat) (tag : String) : ofJson d (.text tag) = simple.lookup tag := by
  rw [Json.text]
  unfold ofJson
  split <;> simp_all

variable {tag : String}

theorem ofJson_tagged {payload : Json} (hspecialized : tag ≠ "Specialized") (htuple : tag ≠ "Tuple")
    (hnull : payload ≠ .null) (d : Nat) :
    ofJson (d + 1) (.tagged tag payload) = flat tag d payload := by
  rw [Json.tagged, Json.record]
  unfold ofJson
  split <;> simp_all

theorem toJson_ne_null (ty : Ty) : toJson ty ≠ .null := by
  cases ty <;> nofun

mutual

theorem toJson_plain : ∀ ty : Ty, (toJson ty).Plain
  | .void | .bool | .infInt | .string | .var _ | .name _ | .external _ | .struct _ | .header _
  | .enum _ | .error _ => by simp [toJson, Handle.codec.plain]
  | .bits _ _ | .varbits _ => by simp [toJson]
  | .specialized _ args => by simpa [toJson, Handle.codec.plain] using toJsonList_plain args
  | .tuple items => by simpa [toJson] using toJsonList_plain items

theorem toJsonList_plain : ∀ tys : List Ty, ∀ j ∈ toJsonList tys, j.Plain
  | [] => by simp [toJsonList]
  | ty :: tys => by simpa [toJsonList] using ⟨toJson_plain ty, toJsonList_plain tys⟩

end

mutual

theorem ofJson_toJson :
    ∀ (ty : Ty) (d : Nat), (toJson ty).depth ≤ d → ofJson d (toJson ty) = some ty
  | .void, d, _ | .bool, d, _ | .infInt, d, _ | .string, d, _ => ofJson_text d _
  | .bits _ _, _, h => by
    refine Codec.tagged (ofJson_tagged (by decide) (by decide) nofun) (fun k hk => ?_) h
    refine Codec.bind_fields rfl (by decide) (fun _ _ => ?_) hk
    simp [List.lookup_cons, Codec.uint32.faithful, Codec.bool.faithful]
  | .varbits _, _, h => by
    refine Codec.tagged (ofJson_tagged (by decide) (by decide) nofun) (fun k hk => ?_) h
    exact Codec.bind_fields rfl (by decide) (fun _ _ => by simp [Codec.uint32.faithful]) hk
  | .name _, _, h | .external _, _, h | .struct _, _, h | .header _, _, h | .enum _, _, h
  | .error _, _, h => Handle.codec.payload (ofJson_tagged (by decide) (by decide) nofun) h
  | .var _, _, h => Codec.string.payload (ofJson_tagged (by decide) (by decide) nofun) h
  | .specialized base args, d, h => by
    obtain ⟨k, rfl, hpayload⟩ := Json.depth_tagged_le.1 h
    obtain ⟨k, rfl, hmembers⟩ := Json.depth_record_le.1 hpayload
    simp only [List.forall_mem_cons] at hmembers
    obtain ⟨k, rfl, hargs⟩ := Json.depth_arr_le.1 hmembers.2.1
    rw [toJson, Json.tagged, Json.record, List.map_singleton, ofJson]
    refine Codec.bind_fields rfl (by decide) (fun k' hk => ?_) hpayload
    simp only [List.forall_mem_cons] at hk
    simp [List.lookup_cons, Handle.codec.faithful hk.1, mapM_toJsonList args k hargs]
  | .tuple items, d, h => by
    obtain ⟨k, rfl, hpayload⟩ := Json.depth_tagged_le.1 h
    obtain ⟨k, rfl, hitems⟩ := Json.depth_arr_le.1 hpayload
    rw [toJson, Json.tagged, Json.record, List.map_singleton, ofJson,
      mapM_toJsonList items k hitems, Option.map_some]

theorem mapM_toJsonList : ∀ (tys : List Ty) (d : Nat), (∀ j ∈ toJsonList tys, j.depth ≤ d) →
    (toJsonList tys).mapM (ofJson d) = some tys
  | [], d, h => rfl
  | ty :: tys, d, h => by
    rw [toJsonList, List.forall_mem_cons] at h
    rw [toJsonList, List.mapM_cons, ofJson_toJson ty d h.1, mapM_toJsonList tys d h.2]
    rfl

end

theorem toJsonList_eq_map (tys : List Ty) : toJsonList tys = tys.map toJson := by
  induction tys with
  | nil => rfl
  | cons ty tys ih => rw [toJsonList, ih, List.map_cons]

theorem depth_of_simple {ty : Ty} (h : simple.lookup tag = some ty) (d : Nat) :
    (toJson ty).depth ≤ d :=
  Codec.depth_of_lookup (by decide) h d

theorem depth_of_flat {d : Nat} {payload : Json} {ty : Ty} (h : flat tag d payload = some ty) :
    (toJson ty).depth ≤ d + 1 := by
  unfold flat at h
  split at h
  · obtain ⟨r, hr, h⟩ := Option.bind_eq_some_iff.1 h
    obtain ⟨w, hw, h⟩ := Option.bind_eq_some_iff.1 h
    obtain ⟨signed, hs, h⟩ := Option.bind_eq_some_iff.1 h
    cases h
    exact Codec.depth_tagged_record hr (by simp)
  · obtain ⟨r, hr, h⟩ := Option.bind_eq_some_iff.1 h
    obtain ⟨w, hw, h⟩ := Option.bind_eq_some_iff.1 h
    cases h
    exact Codec.depth_tagged_record hr (by simp)
  case h_10 => cases h
  all_goals
    obtain ⟨x, -, rfl⟩ := Option.map_eq_some_iff.1 h
    exact Codec.depth_tagged (Nat.zero_le d)

/-- Types in a type are written one after the other, so the deepest of them decides. -/
theorem depth_of_mapM {d : Nat} {items : List Json} {tys : List Ty}
    (ih : ∀ j ty, ofJson d j = some ty → (toJson ty).depth ≤ d)
    (h : items.mapM (ofJson d) = some tys) : (Json.arr (toJsonList tys)).depth ≤ d + 1 := by
  refine Json.depth_arr_le.2 ⟨d, rfl, ?_⟩
  rw [toJsonList_eq_map, List.forall_mem_map]
  intro ty hty
  obtain ⟨j, -, hj⟩ := Codec.exists_of_mapM h ty hty
  exact ih j ty hj

theorem depth_of_ofJson (d : Nat) : ∀ j ty, ofJson d j = some ty → (toJson ty).depth ≤ d := by
  induction d using Nat.strongRecOn with
  | ind d ih =>
    intro j ty h
    unfold ofJson at h
    split at h
    · rename_i d payload
      obtain ⟨r, hr, h⟩ := Option.bind_eq_some_iff.1 h
      obtain ⟨base, hbase, h⟩ := Option.bind_eq_some_iff.1 h
      obtain ⟨args, hargs, h⟩ := Option.bind_eq_some_iff.1 h
      cases h
      obtain ⟨j, -, hargs⟩ := Option.bind_eq_some_iff.1 hargs
      dsimp only at hargs
      split at hargs
      · refine Codec.depth_tagged_record hr ?_
        have hdepth : d + 2 = r.depth + 1 := Codec.depth_of_fields hr
        have hle := depth_of_mapM (ih d (by omega)) hargs
        simp
        omega
      · cases hargs
    · rename_i d items
      obtain ⟨tys, htys, rfl⟩ := Option.map_eq_some_iff.1 h
      exact Codec.depth_tagged (depth_of_mapM (ih d (by omega)) htys)
    · split at h
      · exact depth_of_simple h _
      · exact depth_of_flat h
    · exact depth_of_simple h _
    · cases h

theorem codec : Codec toJson ofJson where
  plain := toJson_plain
  ne_null := toJson_ne_null
  faithful h := ofJson_toJson _ _ h
  depth_le h := depth_of_ofJson _ _ _ h

end Ty

/-! ### Expressions -/

theorem Limbs.codec : Codec Limbs.toJson Limbs.ofJson where
  plain n := by simp [Limbs.toJson, Json.list]
  ne_null := by rintro _ ⟨⟩
  faithful {n d} h := by
    obtain ⟨k, rfl, hitems⟩ := Json.depth_arr_le.1 h
    simp only [List.forall_mem_cons] at hitems
    obtain ⟨k, rfl, -⟩ := Json.depth_arr_le.1 hitems.2.1
    have hlimbs : Decoder.list (Decoder.natBelow UInt32.size) (k + 1)
        (.list .nat (Limbs.ofNat n.natAbs)) = some (Limbs.ofNat n.natAbs) :=
      Codec.mapM_map fun _ hlimb => Codec.natBelow_nat (Limbs.lt_of_mem_ofNat hlimb) k
    have hsign : ¬ (n.sign < -1 ∨ 1 < n.sign) := by
      rcases Int.sign_trichotomy n with h | h | h <;> omega
    have hvalue : n.sign * (Limbs.toNat (Limbs.ofNat n.natAbs) : Int) = n := by
      rw [Limbs.toNat_ofNat, Int.sign_mul_natAbs]
    simp only [Limbs.toJson, Limbs.ofJson, if_neg hsign, hlimbs, Option.bind_eq_bind,
      Option.bind_some, Option.pure_def, hvalue]
  depth_le {d j n} h := by
    have hlimbs : (Json.list Json.nat (Limbs.ofNat n.natAbs)).depth ≤ 1 :=
      Json.depth_arr_le.2 ⟨0, rfl, List.forall_mem_map.2 fun _ _ => Nat.le_refl 0⟩
    unfold Limbs.ofJson at h
    split at h
    · rename_i d _ _
      cases d with
      | zero => simp [Decoder.list] at h
      | succ d =>
        refine Json.depth_arr_le.2 ⟨d + 1, rfl, ?_⟩
        simp only [List.forall_mem_cons, List.not_mem_nil, false_imp_iff, implies_true, and_true]
        exact ⟨Nat.zero_le _, by omega⟩
    · cases h

@[simp] theorem UnaryOp.depth_toJson (op : UnaryOp) : op.toJson.depth = 0 := (rfl)

@[simp] theorem BinaryOp.depth_toJson (op : BinaryOp) : op.toJson.depth = 0 := (rfl)

theorem UnaryOp.codec : Codec UnaryOp.toJson UnaryOp.ofJson :=
  Codec.alternative (by rintro ⟨⟩ <;> rfl)

theorem BinaryOp.codec : Codec BinaryOp.toJson BinaryOp.ofJson :=
  Codec.alternative (by rintro ⟨⟩ <;> rfl)

theorem FieldRef.codec : Codec FieldRef.toJson FieldRef.ofJson :=
  .record (.need Handle.codec fun _ => .need .uint64 fun _ => .done (by rintro ⟨⟩; simp))
    (fun _ => rfl) rfl (by decide)

theorem Path.codec : Codec Path.toJson Path.ofJson :=
  .record (.need .string fun _ => .may Handle.codec fun _ => .need .bool fun _ =>
    .done (by rintro ⟨⟩; simp [and_assoc])) (fun _ => rfl) rfl (by decide)

theorem Member.codec : Codec Member.toJson Member.ofJson :=
  .record (.need Handle.codec fun _ => .need .string fun _ => .may Handle.codec fun _ =>
    .may FieldRef.codec fun _ => .done (by rintro ⟨⟩; simp [and_assoc]))
    (fun _ => rfl) rfl (by decide)

theorem Component.codec : Codec Component.toJson Component.ofJson :=
  .record (.need .string fun _ => .need Handle.codec fun _ => .done (by rintro ⟨⟩; simp))
    (fun _ => rfl) rfl (by decide)

theorem SelectArm.codec : Codec SelectArm.toJson SelectArm.ofJson :=
  .record (.need Handle.codec fun _ => .need .string fun _ => .done (by rintro ⟨⟩; simp))
    (fun _ => rfl) rfl (by decide)

theorem Call.codec : Codec Call.toJson Call.ofJson :=
  .record (.need Handle.codec fun _ => .need Ty.codec.list fun _ => .need Handle.codec.list fun _ =>
    .done (by rintro ⟨⟩; simp [and_assoc])) (fun _ => rfl) rfl (by decide)

namespace Node

theorem ofJson_tagged {tag : String} (htag : tag ≠ "Default") (payload : Json) (d : Nat) :
    ofJson (d + 1) (.tagged tag payload) = ofPayload tag d payload := by
  rw [Json.tagged, Json.record]
  unfold ofJson
  split <;> simp_all

theorem toJson_plain (n : Node) : n.toJson.Plain := by
  cases n <;> simp [toJson, Limbs.codec.plain, Path.codec.plain, Member.codec.plain,
    UnaryOp.codec.plain, BinaryOp.codec.plain, Handle.codec.plain, Ty.codec.plain,
    Handle.codec.list.plain, Component.codec.list.plain, SelectArm.codec.list.plain,
    Call.codec.plain]

theorem ofJson_toJson (n : Node) {d : Nat} (h : n.toJson.depth ≤ d) :
    ofJson d n.toJson = some n := by
  cases n with
  | default => rfl
  | bool _ => exact Codec.bool.payload (ofJson_tagged (by decide) _) h
  | str _ => exact Codec.string.payload (ofJson_tagged (by decide) _) h
  | path _ => exact Path.codec.payload (ofJson_tagged (by decide) _) h
  | member _ => exact Member.codec.payload (ofJson_tagged (by decide) _) h
  | list _ => exact Handle.codec.list.payload (ofJson_tagged (by decide) _) h
  | structInit _ => exact Component.codec.list.payload (ofJson_tagged (by decide) _) h
  | call _ => exact Call.codec.payload (ofJson_tagged (by decide) _) h
  | typeName _ => exact Ty.codec.payload (ofJson_tagged (by decide) _) h
  | constant | unary | binary | mux | slice | concat | cast | select | mask | range =>
    refine Codec.tagged (ofJson_tagged (by decide) _) (fun k hk => ?_) h
    refine Codec.bind_fields rfl (by decide) (fun k hk => ?_) hk
    simp only [List.forall_mem_cons] at hk
    simp [List.lookup_cons, Limbs.codec.faithful, Codec.uint32.faithful, UnaryOp.codec.faithful,
      BinaryOp.codec.faithful, Handle.codec.faithful, Ty.codec.faithful,
      Handle.codec.list.faithful, SelectArm.codec.list.faithful, hk]

/-- One case for each tag, in the order of the decoder. -/
theorem depth_of_ofPayload {tag : String} {d : Nat} {payload : Json} {n : Node}
    (h : ofPayload tag d payload = some n) : n.toJson.depth ≤ d + 1 := by
  unfold ofPayload at h
  split at h
  all_goals simp only [Option.bind_eq_bind, Option.bind_eq_some_iff, Option.pure_def,
    Option.some.injEq, Option.map_eq_some_iff, reduceCtorEq] at h
  · obtain ⟨r, hr, value, hvalue, base, hbase, rfl⟩ := h
    exact Codec.depth_tagged_record hr (by simp [Limbs.codec.depth_of_need hvalue])
  · obtain ⟨value, hvalue, rfl⟩ := h
    exact Codec.depth_tagged (Codec.bool.depth_le hvalue)
  · obtain ⟨value, hvalue, rfl⟩ := h
    exact Codec.depth_tagged (Codec.string.depth_le hvalue)
  · obtain ⟨path, hpath, rfl⟩ := h
    exact Codec.depth_tagged (Path.codec.depth_le hpath)
  · obtain ⟨m, hm, rfl⟩ := h
    exact Codec.depth_tagged (Member.codec.depth_le hm)
  · obtain ⟨r, hr, op, hop, operand, hoperand, rfl⟩ := h
    exact Codec.depth_tagged_record hr (by simp)
  · obtain ⟨r, hr, op, hop, left, hleft, right, hright, rfl⟩ := h
    exact Codec.depth_tagged_record hr (by simp)
  · obtain ⟨r, hr, cond, hcond, ifTrue, htrue, ifFalse, hfalse, rfl⟩ := h
    exact Codec.depth_tagged_record hr (by simp)
  · obtain ⟨r, hr, base, hbase, hi, hhi, lo, hlo, rfl⟩ := h
    exact Codec.depth_tagged_record hr (by simp)
  · obtain ⟨r, hr, left, hleft, right, hright, rfl⟩ := h
    exact Codec.depth_tagged_record hr (by simp)
  · obtain ⟨r, hr, dest, hdest, operand, hoperand, rfl⟩ := h
    exact Codec.depth_tagged_record hr (by simp [Ty.codec.depth_of_need hdest])
  · obtain ⟨items, hitems, rfl⟩ := h
    exact Codec.depth_tagged (Handle.codec.list.depth_le hitems)
  · obtain ⟨components, hcomponents, rfl⟩ := h
    exact Codec.depth_tagged (Component.codec.list.depth_le hcomponents)
  · obtain ⟨r, hr, keys, hkeys, cases, hcases, rfl⟩ := h
    refine Codec.depth_tagged_record hr ?_
    simp [Handle.codec.list.depth_of_need hkeys, SelectArm.codec.list.depth_of_need hcases]
  · obtain ⟨r, hr, value, hvalue, mask, hmask, rfl⟩ := h
    exact Codec.depth_tagged_record hr (by simp)
  · obtain ⟨r, hr, low, hlow, high, hhigh, rfl⟩ := h
    exact Codec.depth_tagged_record hr (by simp)
  · obtain ⟨call, hcall, rfl⟩ := h
    exact Codec.depth_tagged (Call.codec.depth_le hcall)
  · obtain ⟨ty, hty, rfl⟩ := h
    exact Codec.depth_tagged (Ty.codec.depth_le hty)

theorem codec : Codec toJson ofJson where
  plain := toJson_plain
  ne_null n := by cases n <;> nofun
  faithful h := ofJson_toJson _ h
  depth_le {d j n} h := by
    unfold ofJson at h
    split at h
    · cases h
      exact Nat.zero_le _
    · cases h
      exact Nat.zero_le _
    · exact depth_of_ofPayload h
    · cases h

end Node

theorem Expr.codec : Codec Expr.toJson Expr.ofJson :=
  .record (.need Handle.codec fun _ => .need Ty.codec fun _ => .need Node.codec fun _ =>
    .done (by rintro ⟨⟩; simp [and_assoc])) (fun _ => rfl) rfl (by decide)

/-! ### Declarations of types -/

theorem Field.codec : Codec Field.toJson Field.ofJson :=
  .record (.need .string fun _ => .need Ty.codec fun _ => .done (by rintro ⟨⟩; simp))
    (fun _ => rfl) rfl (by decide)

theorem EnumMember.codec : Codec EnumMember.toJson EnumMember.ofJson :=
  .record (.need .string fun _ => .need .string fun _ => .done (by rintro ⟨⟩; simp))
    (fun _ => rfl) rfl (by decide)

theorem Direction.codec : Codec Direction.toJson Direction.ofJson :=
  Codec.alternative (by rintro ⟨⟩ <;> rfl)

theorem Param.codec : Codec Param.toJson Param.ofJson :=
  .record (.need .string fun _ => .need Direction.codec fun _ => .need Ty.codec fun _ =>
    .done (by rintro ⟨⟩; simp [and_assoc])) (fun _ => rfl) rfl (by decide)

theorem Signature.codec : Codec Signature.toJson Signature.ofJson :=
  .record (.need .string fun _ => .need Codec.string.list fun _ => .need Param.codec.list fun _ =>
    .need Ty.codec fun _ => .done (by rintro ⟨⟩; simp [and_assoc])) (fun _ => rfl) rfl (by decide)

namespace TypeBody

theorem toJson_plain (b : TypeBody) : b.toJson.Plain := by
  cases b <;> simp [toJson, Field.codec.list.plain, EnumMember.codec.list.plain,
    Codec.string.list.plain, Signature.codec.list.plain]

theorem ofJson_toJson (b : TypeBody) {d : Nat} (h : b.toJson.depth ≤ d) :
    ofJson d b.toJson = some b := by
  cases b
  all_goals
    obtain ⟨k, rfl, hpayload⟩ := Json.depth_tagged_le.1 h
    refine Codec.bind_fields rfl (by decide) (fun k hk => ?_) hpayload
    simp only [List.forall_mem_cons] at hk
    simp [List.lookup_cons, Codec.string.faithful, Codec.bool.faithful, Field.codec.list.faithful,
      EnumMember.codec.list.faithful, Codec.string.list.faithful, Signature.codec.list.faithful, hk]

theorem codec : Codec toJson ofJson where
  plain := toJson_plain
  ne_null b := by cases b <;> nofun
  faithful h := ofJson_toJson _ h
  depth_le {d j b} h := by
    unfold ofJson at h
    split at h
    · split at h
      all_goals simp only [Option.bind_eq_bind, Option.bind_eq_some_iff, Option.pure_def,
        Option.some.injEq, reduceCtorEq] at h
      · obtain ⟨r, hr, fields, hfields, rfl⟩ := h
        exact Codec.depth_tagged_record hr (by simp [Field.codec.list.depth_of_need hfields])
      · obtain ⟨r, hr, fields, hfields, metadata, hmetadata, rfl⟩ := h
        exact Codec.depth_tagged_record hr (by simp [Field.codec.list.depth_of_need hfields])
      · obtain ⟨r, hr, name, hname, members, hmembers, rfl⟩ := h
        exact Codec.depth_tagged_record hr (by simp [EnumMember.codec.list.depth_of_need hmembers])
      · obtain ⟨r, hr, name, hname, members, hmembers, rfl⟩ := h
        exact Codec.depth_tagged_record hr (by simp [EnumMember.codec.list.depth_of_need hmembers])
      · obtain ⟨r, hr, types, htypes, methods, hmethods, rfl⟩ := h
        refine Codec.depth_tagged_record hr ?_
        simp [Codec.string.list.depth_of_need htypes, Signature.codec.list.depth_of_need hmethods]
    · cases h

end TypeBody

theorem TypeDecl.codec : Codec TypeDecl.toJson TypeDecl.ofJson :=
  .record (.need .string fun _ => .need TypeBody.codec fun _ => .done (by rintro ⟨⟩; simp))
    (fun _ => rfl) rfl (by decide)

/-! ### Declarations of values -/

namespace DeclBody

theorem ofJson_tagged {payload : Json} (hnull : payload ≠ .null) (tag : String) (d : Nat) :
    ofJson (d + 1) (.tagged tag payload) = ofPayload tag d payload := by
  rw [Json.tagged, Json.record]
  unfold ofJson
  split <;> simp_all

theorem toJson_plain (b : DeclBody) : b.toJson.Plain := by
  cases b <;> simp [toJson, Ty.codec.plain, Handle.codec.plain, Handle.codec.plain_option,
    Handle.codec.list.plain, Direction.codec.plain, Signature.codec.plain]

theorem ofJson_toJson (b : DeclBody) {d : Nat} (h : b.toJson.depth ≤ d) :
    ofJson d b.toJson = some b := by
  cases b with
  | table | action => rfl
  | function s => exact Signature.codec.payload (ofJson_tagged (Signature.codec.ne_null s) _) h
  | var | inst | param | const =>
    refine Codec.tagged (ofJson_tagged (by rintro ⟨⟩) _) (fun k hk => ?_) h
    refine Codec.bind_fields rfl (by decide) (fun k hk => ?_) hk
    simp only [List.forall_mem_cons] at hk
    simp [List.lookup_cons, Decoder.Fields.may, Ty.codec.faithful, Handle.codec.faithful,
      Handle.codec.option, Handle.codec.list.faithful, Direction.codec.faithful, hk]

theorem depth_of_simple {tag : String} {b : DeclBody} (h : simple.lookup tag = some b) (d : Nat) :
    b.toJson.depth ≤ d :=
  Codec.depth_of_lookup (by decide) h d

theorem depth_of_ofPayload {tag : String} {d : Nat} {payload : Json} {b : DeclBody}
    (h : ofPayload tag d payload = some b) : b.toJson.depth ≤ d + 1 := by
  unfold ofPayload at h
  split at h
  all_goals simp only [Option.bind_eq_bind, Option.bind_eq_some_iff, Option.pure_def,
    Option.some.injEq, Option.map_eq_some_iff, reduceCtorEq] at h
  · obtain ⟨r, hr, ty, hty, initial, hinitial, rfl⟩ := h
    refine Codec.depth_tagged_record hr ?_
    simp [Ty.codec.depth_of_need hty, Handle.codec.depth_of_may hinitial]
  · obtain ⟨r, hr, ty, hty, args, hargs, rfl⟩ := h
    refine Codec.depth_tagged_record hr ?_
    simp [Ty.codec.depth_of_need hty, Handle.codec.list.depth_of_need hargs]
  · obtain ⟨r, hr, ty, hty, direction, hdirection, rfl⟩ := h
    refine Codec.depth_tagged_record hr ?_
    simp [Ty.codec.depth_of_need hty, Direction.codec.depth_of_need hdirection]
  · obtain ⟨signature, hsignature, rfl⟩ := h
    exact Codec.depth_tagged (Signature.codec.depth_le hsignature)
  · obtain ⟨r, hr, ty, hty, value, hvalue, rfl⟩ := h
    exact Codec.depth_tagged_record hr (by simp [Ty.codec.depth_of_need hty])

theorem codec : Codec toJson ofJson where
  plain := toJson_plain
  ne_null b := by cases b <;> nofun
  faithful h := ofJson_toJson _ h
  depth_le {d j b} h := by
    unfold ofJson at h
    split at h
    · exact depth_of_simple h _
    · split at h
      · exact depth_of_simple h _
      · exact depth_of_ofPayload h
    · cases h

end DeclBody

theorem Decl.codec : Codec Decl.toJson Decl.ofJson :=
  .record (.need .string fun _ => .need DeclBody.codec fun _ => .done (by rintro ⟨⟩; simp))
    (fun _ => rfl) rfl (by decide)

/-! ### Programs -/

theorem HeaderInstance.codec : Codec HeaderInstance.toJson HeaderInstance.ofJson :=
  .record (.need .string fun _ => .need Handle.codec fun _ => .need .bool fun _ =>
    .done (by rintro ⟨⟩; simp [and_assoc])) (fun _ => rfl) rfl (by decide)

theorem BlockKind.codec : Codec BlockKind.toJson BlockKind.ofJson :=
  Codec.alternative (by rintro ⟨⟩ <;> rfl)

theorem Block.codec : Codec Block.toJson Block.ofJson :=
  .record (.need .string fun _ => .need .string fun _ => .need BlockKind.codec fun _ => .need
    Handle.codec.list fun _ => .done (by rintro ⟨⟩; simp [and_assoc]))
    (fun _ => rfl) rfl (by decide)

namespace Program

theorem codec : Codec toJson ofJson :=
  .record (.need Expr.codec.list fun _ => .need Decl.codec.list fun _ =>
    .need TypeDecl.codec.list fun _ => .need HeaderInstance.codec.list fun _ =>
    .need Block.codec.list fun _ => .done (by rintro ⟨⟩; simp [and_assoc, ← Array.toList_inj]))
    (fun _ => rfl) rfl (by decide)

/-- A program is read from its own text if the text may nest deep enough. -/
theorem readUnchecked_render {p : Program} (h : p.toJson.depth ≤ Json.maxDepth) :
    readUnchecked p.render = .ok p := by
  have htree : Json.parse? p.render = some p.toJson := Json.parse?_pretty (codec.plain p)
  have hprogram : ofJson Json.maxDepth p.toJson = some p := codec.faithful h
  simp only [readUnchecked, htree, ofTree, hprogram]

theorem read_of_readUnchecked {p : Program} {text : String} (h : readUnchecked text = .ok p)
    (hvalid : p.validate = .ok ()) : read text = .ok p := by
  rw [read, h]
  simp [checked, hvalid, bind, Except.bind, pure, Except.pure]

/-- A valid program is read from its own text, whatever its strings, integers and shapes, if the
text nests fewer than 128 arrays and objects. -/
theorem read_render (p : Program) (hvalid : p.validate = .ok ()) (hdepth : p.toJson.depth < 128) :
    read p.render = .ok p :=
  read_of_readUnchecked (readUnchecked_render (Nat.le_of_lt_succ hdepth)) hvalid

/-- A negative constant of three limbs, types in types, and a name that is mostly escapes. -/
def escapedNames : Program where
  exprs := #[⟨⟨0⟩, .infInt, .constant (-1180591620717411303424) 16⟩,
    ⟨⟨1⟩, .tuple [.bits 8 true, .specialized ⟨0⟩ [.var "T"]], .list [⟨0⟩]⟩,
    ⟨⟨2⟩, .bool, .path ⟨"\"\\\n\x01é", some ⟨0⟩, false⟩⟩]
  decls := #[⟨"\"\\\n\x01é", .var .bool none⟩]
  typeDecls := #[⟨"register", .external ["T"] [⟨"read", [], [⟨"", .out, .var "T"⟩], .void⟩]⟩]
  blocks := #[⟨"ingress", "", .control, [⟨0⟩]⟩]

theorem escapedNames_survives : escapedNames.validate = .ok () ∧ escapedNames.toJson.depth < 128 ∧
    read escapedNames.render = .ok escapedNames := by
  have hdepth : escapedNames.toJson.depth < 128 := by
    have hlimbs : Limbs.ofNat (-1180591620717411303424 : Int).natAbs = [0, 0, 64] := by
      rw [Limbs.ofNat, Limbs.ofNat, Limbs.ofNat, Limbs.ofNat]
      rfl
    simp only [escapedNames, toJson, Json.list, List.map, Expr.toJson, Node.toJson, Limbs.toJson,
      hlimbs]
    decide
  exact ⟨rfl, hdepth, read_render _ rfl hdepth⟩

end Program

end PacketC
