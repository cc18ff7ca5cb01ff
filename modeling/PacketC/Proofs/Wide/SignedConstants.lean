import PacketC.Proofs.Wide.Literals

/-! Signed constants above 32 bits. Wherever one is written as an array (hoisted for an expression,
hoisted for the field that it is assigned to, or in the declaration of a constant), the array has
the bytes of its magnitude: the sign is lost. These are the bytes of the two's complement for the
numbers that are not negative, and for the least number of a width of whole bytes, which is its own
complement. -/

namespace PacketC

open Code Lower

variable {v : Int} {env : Env} {base : UInt32}

/-- The magnitude of a number of the width is congruent to the number only where the sign does not
matter. -/
theorem natAbs_eq_emod_iff {width : Nat} (hw : 0 < width) (hfits : width + 7 < UInt32.size)
    (hlo : -2 ^ (width - 1) ≤ v) (hhi : v < 2 ^ (width - 1)) :
    (v.natAbs : Int) = v % 256 ^ byteCount width ↔
      0 ≤ v ∨ width % 8 = 0 ∧ v = -2 ^ (width - 1) := by
  have hbytes : width ≤ 8 * byteCount width ∧ 8 * byteCount width < width + 8 := by
    rw [byteCount, Nat.mod_eq_of_lt hfits]
    omega
  have hbase : (256 : Int) ^ byteCount width = ((2 ^ (8 * byteCount width) : Nat) : Int) := by
    rw [Nat.pow_mul]
    simp
  have htop := Nat.two_pow_pred_mul_two hw
  have hle : (2 : Nat) ^ width ≤ 2 ^ (8 * byteCount width) :=
    Nat.pow_le_pow_right (by decide) hbytes.1
  have hpos : 0 < 2 ^ (width - 1) := Nat.two_pow_pos _
  have hcast : (2 : Int) ^ (width - 1) = ((2 ^ (width - 1) : Nat) : Int) := (Nat.cast_pow ..).symm
  rw [hcast] at hlo hhi ⊢
  rw [hbase]
  rcases Int.lt_or_le v 0 with hneg | hnonneg
  · -- the remainder is a whole turn above the number, so twice the magnitude is that turn
    have hmod : v % ((2 ^ (8 * byteCount width) : Nat) : Int) =
        v + ((2 ^ (8 * byteCount width) : Nat) : Int) := by
      rw [← Int.add_emod_right, Int.emod_eq_of_lt (by omega) (by omega)]
    rw [hmod]
    constructor
    · intro h
      have hturn : (2 : Nat) ^ (8 * byteCount width) = 2 ^ width := by omega
      have hwidth := Nat.pow_right_injective (Nat.le_refl 2) hturn
      exact .inr ⟨by omega, by omega⟩
    · rintro (h | ⟨hwhole, hleast⟩)
      · omega
      · have hwidth : 8 * byteCount width = width := by omega
        rw [hwidth]
        omega
  · rw [Int.emod_eq_of_lt hnonneg (by omega)]
    exact iff_of_true (by omega) (.inl hnonneg)

/-- The bytes are those of the magnitude, and of the two's complement only where the two agree. -/
structure KeepsMagnitude (width : Nat) (v : Int) (bytes : List UInt8) : Prop where
  length : bytes.length = byteCount width
  magnitude : bigEndian bytes = v.natAbs
  complement : (bigEndian bytes : Int) = v % 256 ^ byteCount width ↔
    0 ≤ v ∨ width % 8 = 0 ∧ v = -2 ^ (width - 1)

theorem keepsMagnitude_bytes {width : Nat} (hw : 0 < width) (hfits : width + 7 < UInt32.size)
    (hlo : -2 ^ (width - 1) ≤ v) (hhi : v < 2 ^ (width - 1)) :
    KeepsMagnitude width v (Literal.bytes v (byteCount width)) := by
  have hcomplement := natAbs_eq_emod_iff hw hfits hlo hhi
  have hcast : (2 : Int) ^ (width - 1) = ((2 ^ (width - 1) : Nat) : Int) := (Nat.cast_pow ..).symm
  rw [hcast] at hlo hhi
  have htop := Nat.two_pow_pred_mul_two hw
  have hlt : v.natAbs < 2 ^ width := by omega
  have hmagnitude : bigEndian (Literal.bytes v (byteCount width)) = v.natAbs := by
    rw [bigEndian_bytes_eq, Nat.mod_eq_of_lt (lt_pow_byteCount hfits hlt)]
  exact ⟨Literal.length_bytes _ _, hmagnitude, hmagnitude ▸ hcomplement⟩

/-! ### Where the arrays are written -/

theorem expr_declares {id : ExprId} {e : Expr} (he : env.At id e) {width : UInt32}
    {signed : Bool} (hty : e.ty = .bits width signed) (hw : 32 < width.toNat) {value : Int}
    (hnode : e.node = .constant value base) (mode : Mode) (s : Lower.State) :
    ∃ name t code, expr id mode env s = (.ok name, t) ∧ t.emission = s.emission.prepend code ∧
      DeclaresBytes s.memory.names code name none
        (Literal.bytes value (byteCount width.toNat)) := by
  have hexpr : expr id mode env = constant e value base env := by
    have hlevel := level_of_ok (exprWithin env.program.exprs.size) he mode
    rw [nodeText, hnode] at hlevel
    exact hlevel
  rw [hexpr]
  exact constant_declares hty hw value base env s

theorem assign_declares {left right : ExprId} {dst src : Expr} {ref : FieldRef} {l : PacketField}
    (hdst : env.At left dst) (href : dst.fieldRef? = some ref)
    (hl : env.program.packetField ref = .ok l) (hw : 32 < l.width)
    (hsrc : env.At right src) {value : Int}
    (hnode : src.node = .constant value base) (recur : Recur) (s : Lower.State) :
    ∃ name trace t code, assign recur left right env s =
        (.ok (Text.unlines (lengthLines l ++ modifyField l name (toString l.bytes) :: trace)), t) ∧
      t.emission = s.emission.prepend code ∧
      DeclaresBytes s.memory.names code name (some l.bytes) (Literal.bytes value l.bytes) := by
  have hmember : src.member? = none := by rw [Expr.member?, hnode]
  have hassign : assign recur left right env = storeBytes recur l src env := by
    have hwide : ¬l.width ≤ 32 := by omega
    rw [assign, bind_of_pure (look_of_ok hdst), bind_of_pure (look_of_ok hsrc), href]
    dsimp only
    rw [bind_of_pure (look_of_ok hl), if_neg hwide]
  have hsource : byteSource recur l src = do
      let buffer ← nameOf "value" src.id
      hoist s!"uint8_t {buffer}[{l.bytes}] = {Literal.byteArray base.toNat value l.bytes};"
      return ⟨buffer, toString l.bytes⟩ := by
    rw [byteSource, hmember]
    dsimp only
    rw [plainSource, hnode]
  let named := s.memory.names.named "value" src.id.text
  have hrun : assign recur left right env s =
      (.ok (Text.unlines (lengthLines l ++ modifyField l named.1 (toString l.bytes) ::
        if env.config.emitDebugTraces then [wideFieldTrace l ⟨named.1, toString l.bytes⟩] else [])),
      ⟨{ s.memory with names := named.2 }, s.emission.prepend
        s!"uint8_t {named.1}[{l.bytes}] = {Literal.byteArray base.toNat value l.bytes};"⟩) := by
    rw [hassign, storeBytes, hsource]
    rfl
  exact ⟨_, _, _, _, hrun, rfl,
    declaresBytes_byteArray (label_of_named isStem_value src.id) base.toNat value l.bytes⟩

theorem declaration_lists {id : DeclId} {d : Decl} {width : UInt32} {signed : Bool} {value : ExprId}
    {e : Expr} (hd : env.program.decl id = .ok d)
    (hbody : d.body = .const (.bits width signed) value) (hw : 32 < width.toNat)
    (he : env.At value e) (hnode : e.node = .constant v base) (recur : Recur)
    (rename : Option String) (s : Lower.State) :
    ∃ init t, declaration recur id rename env s =
        (.ok ("const " ++ Ty.declare (Ty.bitsText .declaration width.toNat signed)
          (rename.getD d.name) ++ " = " ++ init ++ ";"), t) ∧ t.emission = s.emission ∧
      initializer? init = some ((Literal.bytes v (byteCount width.toNat)).map UInt8.toNat) := by
  have hbuffer : bufferWidth? (.bits width signed) = some width.toNat := by
    simp [bufferWidth?, Ty.width, hw]
  have hdeclared : declaredText true (.bits width signed) (rename.getD d.name) env s =
      (.ok (Ty.declare (Ty.bitsText .declaration width.toNat signed) (rename.getD d.name)),
        s.note []) := rfl
  have hrun : declaration recur id rename env s =
      (.ok ("const " ++ Ty.declare (Ty.bitsText .declaration width.toNat signed)
          (rename.getD d.name) ++ " = " ++
          Literal.byteArray base.toNat v (byteCount width.toNat) ++ ";"),
        s.note []) := by
    rw [declaration, bind_of_pure (look_of_ok hd), hbody]
    dsimp only
    rw [constDecl, run_bind, hdeclared]
    dsimp only
    rw [bind_of_pure (look_of_ok he), hnode, hbuffer]
    rfl
  exact ⟨_, _, hrun, rfl, initializer?_byteArray base.toNat v (byteCount width.toNat)⟩

/-! ### What becomes of the sign -/

/-- For a constant of a signed type above 32 bits there is one list of bytes, as many as the width
takes: it is what the array is declared with that is hoisted for the constant as an expression, what
the array is declared with that is hoisted where it is assigned to a field of its width, and what
the declaration of a constant of its type lists. It stands for the magnitude, and is the two's
complement of the number if and only if the number is not negative or is the least of a width of
whole bytes. -/
theorem wide_signed_constants_lose_sign (width : UInt32) (hw : 32 < width.toNat)
    (hfits : width.toNat + 7 < UInt32.size) (v : Int) (hlo : -2 ^ (width.toNat - 1) ≤ v)
    (hhi : v < 2 ^ (width.toNat - 1)) (base : UInt32) (env : Env) (s : Lower.State) :
    ∃ bytes, KeepsMagnitude width.toNat v bytes ∧
      (∀ id e mode, env.program.expr id = .ok e → e.ty = .bits width true →
        e.node = .constant v base →
        ∃ name t code, expr id mode env s = (.ok name, t) ∧
          t.emission = s.emission.prepend code ∧
          DeclaresBytes s.memory.names code name none bytes) ∧
      (∀ left dst ref l right src, env.program.expr left = .ok dst → dst.fieldRef? = some ref →
        env.program.packetField ref = .ok l → l.width = width.toNat →
        env.program.expr right = .ok src → src.node = .constant v base →
        ∃ name trace t code, assign expr left right env s = (.ok (Text.unlines (lengthLines l ++
            modifyField l name (toString (byteCount width.toNat)) :: trace)), t) ∧
          t.emission = s.emission.prepend code ∧
          DeclaresBytes s.memory.names code name (some (byteCount width.toNat)) bytes) ∧
      ∀ id d value e rename, env.program.decl id = .ok d →
        d.body = .const (.bits width true) value → env.program.expr value = .ok e →
        e.node = .constant v base →
        ∃ init t, declaration expr id rename env s = (.ok ("const " ++
            Ty.declare (Ty.bitsText .declaration width.toNat true) (rename.getD d.name) ++ " = " ++
            init ++ ";"), t) ∧
          t.emission = s.emission ∧ initializer? init = some (bytes.map UInt8.toNat) := by
  refine ⟨_, keepsMagnitude_bytes (by omega) hfits hlo hhi, ?_, ?_, ?_⟩
  · intro id e mode he hty hnode
    exact expr_declares he hty hw hnode mode s
  · intro left dst ref l right src hdst href hl hwidth hsrc hnode
    have hbytes : l.bytes = byteCount width.toNat := by rw [PacketField.bytes, hwidth]
    rw [← hbytes]
    exact assign_declares hdst href hl (by omega) hsrc hnode expr s
  · intro id d value e rename hd hbody he hnode
    exact declaration_lists hd hbody hw he hnode expr rename s

/-- A field of 40 bits, the constant −1 of its type, and a declaration of that constant. -/
def lostSign : Program where
  exprs := #[.packet, .packetHeader, .packetField 2 (.bits 40 true) "f" 0,
    ⟨⟨3⟩, .bits 40 true, .constant (-1) 16⟩]
  decls := #[⟨"k", .const (.bits 40 true) ⟨3⟩⟩]
  typeDecls := #[⟨"t", .header [⟨"f", .bits 40 true⟩]⟩]
  headers := #[⟨"h", ⟨0⟩, false⟩]

/-- Wherever the constant is written, it is written as 1. -/
theorem lostSign_written_as_one :
    let env : Env := ⟨(Session.start .standard).scope lostSign, none⟩
    let s : Lower.State := ⟨.empty, .empty⟩
    ∃ bytes, bigEndian bytes = 1 ∧ (bigEndian bytes : Int) ≠ -1 % 256 ^ byteCount 40 ∧
      (∃ name t code, expr ⟨3⟩ .value env s = (.ok name, t) ∧
        t.emission = s.emission.prepend code ∧ DeclaresBytes .empty code name none bytes) ∧
      (∃ name text t code, assign expr ⟨2⟩ ⟨3⟩ env s = (.ok text, t) ∧
        t.emission = s.emission.prepend code ∧ DeclaresBytes .empty code name (some 5) bytes) ∧
      ∃ init t, declaration expr ⟨0⟩ none env s = (.ok ("const int8_t k[5] = " ++ init ++ ";"), t) ∧
        initializer? init = some (bytes.map UInt8.toNat) := by
  intro env s
  obtain ⟨bytes, hbytes, hexpr, hassign, hdecl⟩ :=
    wide_signed_constants_lose_sign 40 (by decide) (by decide) (-1) (by decide) (by decide) 16 env s
  obtain ⟨name, trace, t, code, hrun, hcode, hdeclares⟩ :=
    hassign ⟨2⟩ _ _ _ ⟨3⟩ _ rfl rfl rfl rfl rfl rfl
  obtain ⟨init, u, hinit, -, hlists⟩ := hdecl ⟨0⟩ _ _ _ none rfl rfl rfl rfl
  refine ⟨bytes, hbytes.magnitude, fun h => ?_, hexpr ⟨3⟩ _ .value rfl rfl rfl,
    ⟨name, _, t, code, hrun, hcode, hdeclares⟩, init, u, hinit, hlists⟩
  rcases hbytes.complement.1 h with h | ⟨-, h⟩ <;> revert h <;> decide

theorem lostSign_differs : lostSign.validate = .ok () ∧
    ((Session.start .standard).lowerExpression lostSign ⟨3⟩ none .value).1 =
      .ok ⟨.expression, ["uint8_t const_0x0000000001_3[] = \x7b0x00, 0x00, 0x00, 0x00, 0x01\x7d;"],
        "const_0x0000000001_3", []⟩ ∧
    initializer? "\x7b0x00, 0x00, 0x00, 0x00, 0x01\x7d" = some [0, 0, 0, 0, 1] ∧
    (bigEndian [0, 0, 0, 0, 1] : Int) ≠ -1 % 2 ^ 40 := by
  refine ⟨rfl, rfl, ?_, ?_⟩ <;> decide

end PacketC
