import PacketC.Proofs.Wide.Laid

/-! What bit strings above 32 bits are made of. A number is kept as its bytes, the highest first; a
field of the packet is copied to an array for one use, a constant is declared with its bytes, and a
path is a buffer that is declared elsewhere. -/

namespace PacketC

open Code Lower

/-! ### Bytes -/

theorem bigEndian_reverse (bs : List UInt8) :
    bigEndian bs.reverse = bs.foldr (fun b n => n * 256 + b.toNat) 0 := by
  rw [bigEndian, List.foldl_reverse]

theorem bigEndian_littleEndian (len n : Nat) :
    bigEndian (Literal.littleEndian len n).reverse = n % 256 ^ len := by
  rw [bigEndian_reverse]
  induction len generalizing n with
  | zero => simp [Literal.littleEndian, Nat.mod_one]
  | succ len ih =>
    have hmod : n % 256 ^ (len + 1) = n % 256 + 256 * (n / 256 % 256 ^ len) := by
      rw [Nat.pow_succ', Nat.mod_mul]
    rw [Literal.littleEndian, List.foldr_cons, ih, UInt8.toNat_ofNat', hmod]
    omega

variable {n : Nat} {rt : Runtime} {m : Machine} {c : Content} {p : Program} {block : Option BlockId}

/-- The bytes of a number that fits stand for it. -/
theorem bigEndian_bytes {len : Nat} (h : n < 256 ^ len) : bigEndian (Literal.bytes n len) = n := by
  rw [Literal.bytes, Int.natAbs_natCast, bigEndian_littleEndian, Nat.mod_eq_of_lt h]

theorem lt_pow_byteCount {width : Nat} (hwidth : width + 7 < UInt32.size) (h : n < 2 ^ width) :
    n < 256 ^ byteCount width := by
  have hle : 2 ^ width ≤ 256 ^ byteCount width := by
    rw [show (256 : Nat) = 2 ^ 8 from rfl, ← Nat.pow_mul]
    exact Nat.pow_le_pow_right (by decide) (by rw [byteCount, Nat.mod_eq_of_lt hwidth]; omega)
  omega

/-- The bytes are there, and stand for the number. -/
def Encodes (bytes : Option (List UInt8)) (len n : Nat) : Prop :=
  ∃ bs, bytes = some bs ∧ bs.length = len ∧ bigEndian bs = n

theorem encodes_bytes {len : Nat} (h : n < 256 ^ len) :
    Encodes (some (Literal.bytes n len)) len n :=
  ⟨_, rfl, Literal.length_bytes _ _, bigEndian_bytes h⟩

/-- Bytes of one length are told apart exactly if the numbers differ. -/
theorem compare_eq_zero_iff (rt : Runtime) {a b : List UInt8} (h : a.length = b.length) :
    rt.compare a b = 0 ↔ bigEndian a = bigEndian b := by
  rw [← Int.sign_eq_zero_iff_zero, rt.sign_compare a b h, Int.sign_eq_zero_iff_zero,
    Int.sub_eq_zero, Int.natCast_inj]

theorem operand_memcmp {l r : String} {a b : Term} (hl : Operand l a) (hr : Operand r b) (n : Nat) :
    Operand s!"memcmp({l}, {r}, {n})" (.call "memcmp" [a, b, .num n]) := by
  have hcomma : Symbol ", " [.one ','] := by decide
  have hmemcmp : Label "memcmp" := by decide
  have hargs := ((numeral_toString n).operand.arguments.cons hcomma hr).cons hcomma hl
  have htext : s!"memcmp({l}, {r}, {n})" =
      "memcmp" ++ "(" ++ (l ++ ", " ++ (r ++ ", " ++ toString n)) ++ ")" := by
    have hopen : "memcmp(" = "memcmp" ++ "(" := rfl
    show "memcmp(" ++ l ++ ", " ++ r ++ ", " ++ toString n ++ ")" = _
    rw [hopen]
    simp only [String.append_assoc]
  rw [htext]
  exact hargs.call hmemcmp

/-- Two buffers compare as equal exactly if their numbers are. -/
theorem eval_memcmp {a b : Term} {len x y : Nat} (ha : Encodes (m.buffer rt a) len x)
    (hb : Encodes (m.buffer rt b) len y) :
    ∃ v, (Term.call "memcmp" [a, b, .num len]).eval (m.store rt) = some v ∧ (v = 0 ↔ x = y) := by
  obtain ⟨bs, hbs, rfl, rfl⟩ := ha
  obtain ⟨cs, hcs, hlen, rfl⟩ := hb
  refine ⟨rt.compare bs cs, ?_, compare_eq_zero_iff rt hlen.symm⟩
  show m.compared rt a b bs.length = _
  rw [Machine.compared, hbs, hcs]
  show (if bs.length ≤ bs.length ∧ bs.length ≤ cs.length then _ else _) = _
  rw [if_pos ⟨Nat.le_refl _, hlen.ge⟩, List.take_length, ← hlen, List.take_length]

/-- A variable that is declared with bytes. -/
theorem buffer_of_holds {hs : List Hoisted} {x : String} {bs : List UInt8}
    (h : Hoisted.Holds rt hs m) (hmem : ⟨x, c⟩ ∈ hs) (hc : c.slot rt = some (.bytes bs)) :
    m.buffer rt (.name x) = some bs := by
  obtain ⟨slot, hslot, hlookup⟩ := h _ hmem
  obtain rfl := Option.some.inj (hslot.symm.trans hc)
  simp [Machine.buffer, hlookup]

/-- A variable that is declared with a number. -/
theorem store_of_holds {hs : List Hoisted} {x : String} {v : Int} (h : Hoisted.Holds rt hs m)
    (hmem : ⟨x, c⟩ ∈ hs) (hc : c.slot rt = some (.scalar v)) : m.store rt (.name x) = some v := by
  obtain ⟨slot, hslot, hlookup⟩ := h _ hmem
  obtain rfl := Option.some.inj (hslot.symm.trans hc)
  simp [Machine.store, hlookup]

theorem numeral_byte (b : UInt8) : Numeral ("0x" ++ Literal.byteDigits b) b.toNat := by
  have hmark : IsWord "0x" := by decide
  have hlist : (Literal.byteDigits b).toList =
      [Nat.digitChar (b.toNat / 16), Nat.digitChar (b.toNat % 16)] := String.toList_ofList
  have hlt : b.toNat < 256 := b.toNat_lt
  have hhigh : b.toNat / 16 < 16 := by omega
  have hlow : b.toNat % 16 < 16 := by omega
  have hword : ∀ d : Fin 16, isWordChar (Nat.digitChar d) = true := by decide
  refine ⟨hmark.append ?_, starts_append (by decide), ?_⟩
  · rw [hlist]
    simp [hword ⟨_, hhigh⟩, hword ⟨_, hlow⟩]
  · have hread : number? ("0x" ++ Literal.byteDigits b).toList =
        digits? 16 (Literal.byteDigits b).toList := by
      rw [String.toList_append]
      rfl
    rw [hread, hlist, digits?, if_neg (by simp)]
    simp only [List.foldlM_cons, List.foldlM_nil, digit?_digitChar (Nat.le_refl 16) hhigh,
      digit?_digitChar (Nat.le_refl 16) hlow, Option.map_some, Option.bind_eq_bind,
      Option.bind_some, Option.pure_def, Option.some.injEq]
    omega

theorem numerals_map {f : UInt8 → String} (h : ∀ b, Numeral (f b) b.toNat) (bytes : List UInt8) :
    List.Forall₂ Numeral (bytes.map f) (bytes.map UInt8.toNat) :=
  List.forall₂_map_left_iff.2 (List.forall₂_map_right_iff.2 (List.forall₂_same.2 fun b _ => h b))

/-! ### Fields of the packet -/

/-- The expression is a field of a header or of metadata, and has the type of the field. -/
structure Program.FieldAt (p : Program) (i : ExprId) (ty : Ty) where
  member : Member
  ref : FieldRef
  field : Field
  place : PacketField
  isMember : p.Is i ty (.member member)
  refers : member.field = some ref
  found : p.field ref = .ok field
  typed : field.ty = ty
  located : p.packetField ref = .ok place

namespace Program.FieldAt

variable {p : Program} {block : Option BlockId} {i : ExprId} {ty : Ty}

/-- What the place of a field says about the program. -/
theorem place_spec (f : p.FieldAt i ty) : ∃ h ∈ p.headers, ∃ t ∈ p.typeDecls, f.field ∈ t.fields ∧
    f.place.header = h.name ∧ f.place.field = f.field.name ∧
    f.place.fieldId = Target.fieldId t.name f.field.name ∧
    f.place.headerId = (if h.isMetadata then Target.allMetadata else Target.headerInstance h.name) ∧
    f.place.width = ty.width.getD 0 := by
  obtain ⟨h, t, hh, ht, hget⟩ := Program.field_eq_ok_iff.1 f.found
  have hh' : p.header f.ref.header = .ok h := Program.lookup_eq_ok_iff.2 hh
  have ht' : p.typeDecl h.headerType = .ok t := Program.lookup_eq_ok_iff.2 ht
  have hplace := f.located
  unfold Program.packetField at hplace
  simp only [hh', ht', f.found, bind, Except.bind] at hplace
  injection hplace with hplace
  refine ⟨h, Array.mem_of_getElem? hh, t, Array.mem_of_getElem? ht, List.mem_of_getElem? hget, ?_⟩
  rw [← hplace]
  refine ⟨rfl, rfl, rfl, rfl, ?_⟩
  show f.field.size = _
  rw [Field.size, f.typed]

theorem width_eq (f : p.FieldAt i ty) : f.place.width = ty.width.getD 0 := by
  obtain ⟨_, _, _, _, _, _, _, _, _, hw⟩ := f.place_spec
  exact hw

theorem isStem_name (hn : p.PlainNames) (f : p.FieldAt i ty) :
    IsStem (f.place.header ++ "_" ++ f.place.field) := by
  obtain ⟨h, hh, t, ht, hf, hheader, hfield, -⟩ := f.place_spec
  have hname := hn.headers h hh
  have hstem : IsStem h.name := ⟨hname.toIsWord, hname.start⟩
  have hbar : "_".toList.all isWordChar = true := by decide
  rw [hheader, hfield]
  exact (hstem.append hbar).append (hn.fields t ht _ hf).chars

theorem labels (hn : p.PlainNames) (f : p.FieldAt i ty) :
    Label f.place.headerId ∧ Label f.place.fieldId := by
  obtain ⟨h, hh, t, ht, hf, -, -, hfield, hheader, -⟩ := f.place_spec
  rw [hheader, hfield]
  refine ⟨?_, label_fieldId (hn.types t ht).toIsWord (hn.fields t ht _ hf).toIsWord⟩
  split
  · decide
  · exact label_headerInstance (hn.headers h hh).toIsWord

/-- A field that fits a scalar is read where it is. -/
theorem gives (wf : p.WellFormed) (f : p.FieldAt i ty) (h : ty.width.getD 0 ≤ 32) :
    Gives p block (Lower.expr i .value) (packetValue f.place) := by
  obtain ⟨id, he⟩ := f.isMember
  have hnarrow : ¬ 32 < f.place.width := by
    rw [f.width_eq]
    exact Nat.not_lt.2 h
  refine .expr wf he ?_
  show Gives _ _ (Lower.member Lower.expr _ f.member .value) _
  unfold Lower.member
  rw [f.refers]
  refine .bind (.look f.located) ?_
  rw [if_neg (by decide), if_neg hnarrow]
  exact .pure _

end Program.FieldAt

/-! ### Paths -/

/-- Where a path is read from. -/
def Path.place (p : Program) (block : Option BlockId) (x : Path) : Place :=
  if x.decl.any fun d => block.any fun b => p.isLocalOf b d then .ofBlock x.name else .free x.name

theorem Path.place_gives (x : Path) : Gives p block (pathText x .value) (x.place p block).text := by
  unfold pathText Path.place
  cases hd : x.decl with
  | none => exact .pure _
  | some d =>
    refine .bind (.isLocal d) ?_
    rw [Option.any_some]
    cases block.any fun b => p.isLocalOf b d with
    | false => exact .pure _
    | true => exact .pure _

theorem Path.plain_place {x : Path} (h : Identifier x.name) : (x.place p block).Plain := by
  unfold Path.place
  split
  · exact h.toIsWord
  · exact h

/-- The name that a path begins with. -/
def Path.root (p : Program) (block : Option BlockId) (x : Path) : String :=
  match x.place p block with
  | .ofBlock _ => "local_vars"
  | _ => x.name

/-- A path whose name is not hidden means what it means elsewhere. -/
theorem Path.read_place {x : Path} (h : m.isFree (x.root p block) = true) (rt : Runtime) :
    m.store rt (x.place p block).term = rt.scalar (x.place p block).term ∧
      m.buffer rt (x.place p block).term = rt.buffer (x.place p block).term := by
  unfold Path.root at h
  unfold Path.place at h ⊢
  split
  · rename_i hlocal
    rw [if_pos hlocal] at h
    exact ⟨if_pos h, if_pos h⟩
  · rename_i hfree
    rw [if_neg hfree] at h
    have hlookup : m.vars.lookup x.name = none := Option.isNone_iff_eq_none.1 h
    simp [Place.term, Machine.store, Machine.buffer, hlookup]

/-! ### Constants -/

/-- The array that a constant is declared as. -/
def constantContent (value : Int) (width : Nat) : Content :=
  let bytes := Literal.bytes value (byteCount width)
  .constant false (bytes.map fun b => "0x" ++ Literal.byteDigits b) bytes

theorem plain_constantContent (value : Int) (width : Nat) : (constantContent value width).Plain :=
  numerals_map numeral_byte _

/-- The declaration that belongs to the name of a constant. -/
def ConstantOf (p : Program) (key : String × String) (c : Content) : Prop :=
  ∃ (id : ExprId) (e : Expr) (value : Int) (base w : UInt32) (signed : Bool), key.2 = id.text ∧
    p.At id e ∧ e.node = .constant value base ∧ e.ty = .bits w signed ∧
    c = constantContent value w.toNat

theorem ConstantOf.unique {key : String × String} {d : Content} (hc : ConstantOf p key c)
    (hd : ConstantOf p key d) : c = d := by
  obtain ⟨id, e, value, base, w, signed, hid, he, hnode, hty, rfl⟩ := hc
  obtain ⟨id', e', value', base', w', signed', hid', he', hnode', hty', rfl⟩ := hd
  obtain rfl := Handle.text_injective (hid.symm.trans hid')
  obtain rfl := Except.ok.inj (he.symm.trans he')
  cases hnode.symm.trans hnode'
  cases hty.symm.trans hty'
  rfl

theorem isStem_constant (value : Int) (len : Nat) :
    IsStem ("const_0x" ++ Literal.hexBytes value len) := by
  have hmark : IsStem "const_0x" := ⟨by decide, by decide⟩
  refine hmark.append ?_
  rw [Literal.hexBytes]
  induction Literal.bytes value len with
  | nil => rfl
  | cons b bs ih =>
    have hword := (numeral_byte b).chars
    rw [String.toList_append, List.all_append, Bool.and_eq_true] at hword
    rw [List.map_cons, String.join_cons, String.toList_append, List.all_append, ih, hword.2]
    rfl

/-! ### Lowering -/

section Lowering

variable {plan : Plan} {env : Env} {loud : Bool} {i : ExprId} {w : UInt32}

theorem id_of_expr {p : Program} (wf : p.WellFormed) {e : Expr} (he : p.At i e) :
    e.id = i :=
  Handle.ext_index (wf.ids i.index e (Program.lookup_eq_ok_iff.1 he))

/-- A field above 32 bits is copied to an array of its own. -/
theorem expr_field (wf : env.program.WellFormed) {ty : Ty} (f : env.program.FieldAt i ty)
    (hw : 32 < ty.width.getD 0) :
    Lower.expr i .value env = (do
      let x ← freshName (f.place.header ++ "_" ++ f.place.field)
      hoist ((Content.field (byteCount (ty.width.getD 0)) f.place).text x)
      return x : LowerM String) env := by
  obtain ⟨id, he⟩ := f.isMember
  rw [expr_eq_nodeText wf he]
  show member Lower.expr _ f.member .value env = _
  have hwide : 32 < f.place.width := by rw [f.width_eq]; exact hw
  rw [member, f.refers]
  refine (bind_of_pure (look_of_ok f.located)).trans ?_
  rw [if_neg (by decide), if_pos hwide, PacketField.bytes, f.width_eq]
  rfl

theorem lays_field (wf : env.program.WellFormed) {ty : Ty} (f : env.program.FieldAt i ty)
    (hw : 32 < ty.width.getD 0)
    (hok : ∀ n, plan.allowed ⟨NameSupply.numbered (f.place.header ++ "_" ++ f.place.field) n,
      .field (byteCount (ty.width.getD 0)) f.place⟩) :
    Lays plan.ledger env loud (Lower.expr i .value) fun text hs =>
      Identifier text ∧ ⟨text, .field (byteCount (ty.width.getD 0)) f.place⟩ ∈ hs :=
  .inEnv (expr_field wf f hw) (.fresh hok fun _ => .pure fun _ hx hmem => ⟨hx, hmem⟩)

/-- A constant above 32 bits is an array under a name of its own. -/
theorem expr_constant (wf : env.program.WellFormed) {value : Int} {base : UInt32} {signed : Bool}
    (h : env.program.Is i (.bits w signed) (.constant value base)) (hw : 32 < w.toNat) :
    Lower.expr i .value env = (do
      let x ← nameOf ("const_0x" ++ Literal.hexBytes value (byteCount w.toNat)) i
      hoist ((constantContent value w.toNat).text x)
      return x : LowerM String) env := by
  obtain ⟨id, he⟩ := h
  rw [expr_eq_nodeText wf he, ← id_of_expr wf he]
  show (if 32 < w.toNat then _ else _ : LowerM String) env = _
  rw [if_pos hw]
  rfl

theorem lays_constant (wf : env.program.WellFormed) {value : Int} {base : UInt32} {signed : Bool}
    (h : env.program.Is i (.bits w signed) (.constant value base)) (hw : 32 < w.toNat)
    (hok : ∀ x, Identifier x → plan.allowed ⟨x, constantContent value w.toNat⟩)
    (hkey : ∀ {key c}, ConstantOf env.program key c → plan.assigned key c) :
    Lays plan.ledger env loud (Lower.expr i .value) fun text hs =>
      Identifier text ∧ ⟨text, constantContent value w.toNat⟩ ∈ hs := by
  obtain ⟨id, he⟩ := id h
  exact .inEnv (expr_constant wf h hw) (.named
    (fun x hx => hok x (identifier_of_derived (isStem_constant value _) hx))
    (hkey ⟨i, _, value, base, w, signed, rfl, he, rfl, rfl, rfl⟩)
    fun x => .pure fun _ hx hmem => ⟨hx, hmem⟩)

/-- A path is read where it is. -/
theorem lays_path (wf : env.program.WellFormed) {ty : Ty} {x : Path}
    (h : env.program.Is i ty (.path x)) :
    Lays plan.ledger env loud (Lower.expr i .value) fun text _ =>
      text = (x.place env.program env.block).text := by
  obtain ⟨id, he⟩ := h
  exact .expr wf he (.gives x.place_gives rfl rfl)

end Lowering

end PacketC
