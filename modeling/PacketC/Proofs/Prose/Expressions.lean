import PacketC.Proofs.Lower.CallSteps
import PacketC.Proofs.Prose.Manner

/-! The parts of an expression other than calls are written in any manner: fields and paths,
operators, constants, members, lists, structs and transitions. Only fields apply macros; all else
puts together what it is given. -/

namespace PacketC.Lower

open Code

variable {env : Env} {M : Manner env} {A : ExprId → Prop} {C : M.World → Prop} {recur : Recur}
  {name : String} {e : Expr}

/-! ### Fields and paths -/

theorem fieldText_holds (hN : M.Naming) {ref : FieldRef}
    (hgrants : ∀ l, env.program.packetField ref = .ok l → M.Grants l) (mode : Mode) :
    M.Holds C (fieldText ref mode) M.Text := by
  refine .look fun l hl => ?_
  split
  · exact .pure fun _ => (Manner.packetField hl).fieldInstance.text
  · split
    · exact hN.freshName (M.fieldHint hl) (fun m _ _ => (hgrants l hl).packetBuffer m _)
        fun m => .pure And.left
    · exact .pure fun _ => (hgrants l hl).value

theorem bare_localStorage (h : M.Bare name) : M.Bare (localStorage name) :=
  (M.bare.opens rfl).last h

theorem bare_parameterStorage (h : M.Bare name) :
    M.Bare (parameterStorage name) := (M.bare.opens rfl).last h

theorem pathText_holds {path : Path} (h : M.Bare path.name) (mode : Mode) :
    M.Holds C (pathText path mode) M.Text := by
  unfold pathText
  split
  · exact .pure fun _ => h.text
  · refine .isLocal _ fun b => ?_
    split
    · exact .pure fun _ => (bare_localStorage h).text
    · split
      · exact .pure fun _ => (bare_parameterStorage h).text
      · exact .pure fun _ => h.text

theorem addressedPath_holds {path : Path} (h : M.Bare path.name) :
    M.Holds C (addressedPath path) M.Text := by
  unfold addressedPath
  split
  · exact .pure fun _ => (bare_parameterStorage h).text
  · refine .isLocal _ fun b => ?_
    split
    · exact .pure fun _ => (bare_localStorage h).text
    · exact .pure fun _ => (bare_parameterStorage h).text

theorem headerSlot_holds (hr : M.Each A recur) (he : A e.id) (mode : Mode) :
    M.Holds C (headerSlot recur e mode) M.Text := by
  unfold headerSlot
  split
  · exact .look fun i hi => .pure fun _ => (Manner.header hi).2.text
  · exact hr he _

/-! ### Operators -/

theorem typeText_returns {ty : Ty} {text : String} (h : Returns env (typeText ty) text) :
    TypeText env.toTypeScope text := by
  obtain ⟨s, s', hs⟩ := h
  cases hs
  exact .render ty .parameter

theorem typeMask_holds (ty : Ty) :
    M.Holds C (typeMask ty) fun mask w =>
      Opening M.lined (M.Part · w) (M.Text · w) ("(" ++ mask) := by
  unfold typeMask
  split
  · refine .pure fun _ => ?_
    rw [← String.append_assoc]
    exact (M.text.opens rfl).arg (M.part.hex _) rfl
  · refine .note_then _ (.pure fun _ => ?_)
    rw [String.append_empty]
    exact M.text.opens rfl

theorem masked_holds (ty : Ty) {inner : String} (h : ∀ {w}, C w → M.Part inner w) :
    M.Holds C (do return masked (← typeMask ty) inner) M.Text :=
  .bind (typeMask_holds ty) fun _ _ => .pure fun hC => hC.1.close (h hC.2) rfl

theorem unsupported_holds (category : Category) (message : String) :
    M.Holds C (unsupported category message) M.Text :=
  .note_then _ (.pure fun _ => M.bare.empty.text)

theorem unary_holds (hr : M.Each A recur) (e : Expr) (op : UnaryOp) {operand : ExprId}
    (ho : A operand) (mode : Mode) : M.Holds C (unary recur e op operand mode) M.Text := by
  unfold unary
  split
  · exact unsupported_holds _ _
  · refine .bind (hr ho _) fun inner _ => ?_
    unfold unaryText
    split
    · split
      · refine masked_holds _ fun h => ((M.part.opens rfl).arg ?_ rfl).close h.1.part rfl
        exact M.part.digits (by decide) (by decide) _
      · exact .pure fun h => (M.text.opens rfl).close h.1.part rfl
    · exact masked_holds _ fun h => (M.part.opens rfl).close h.1.part rfl
    · exact .pure fun h => (M.text.opens rfl).close h.1.part rfl

theorem part_applied {w : M.World} {l r : String} (hl : M.Part l w) (op : BinaryOp)
    (hr : M.Part r w) : M.Part (appliedText l op r) w := by
  have hsymbol : isBetween M.lined op.symbol.toList = true := by cases op <;> rfl
  have hopening := M.part.start hl hsymbol
  rw [String.ofList_toList] at hopening
  exact hopening.last hr

theorem binaryText_holds (ty : Ty) (op : BinaryOp) {l r : String} (hl : ∀ {w}, C w → M.Part l w)
    (hr : ∀ {w}, C w → M.Part r w) : M.Holds C (binaryText ty op l r) M.Text := by
  have happlied : ∀ {w}, C w → M.Part (appliedText l op r) w := fun h =>
    part_applied (hl h) op (hr h)
  have hparens : M.Holds C (Pure.pure s!"({appliedText l op r})") M.Text := .pure fun h =>
    (M.text.opens rfl).close (happlied h) rfl
  have hsub : ∀ width {w}, C w → M.Part s!"({l}+({power width}-{r}))" w := fun width _ h =>
    (((M.part.opens rfl).arg (hl h) rfl).arg (M.part.digits (by decide) (by decide) _) rfl).close
      (hr h) rfl
  unfold binaryText
  split
  · exact hparens
  · split
    · exact masked_holds _ (hsub _)
    · exact masked_holds _ (hsub _)
    · exact .pure fun h => ((((M.text.opens rfl).arg (hr h) rfl).arg (M.part.number _) rfl).arg
        (hl h) rfl).close (hr h) rfl
    · exact hparens
    · exact masked_holds _ fun h => (M.part.opens rfl).close (happlied h) rfl
    · split
      · exact .bind (.typeText _) fun _ _ => .pure fun h =>
          ((M.text.opens rfl).arg h.1.part rfl).close (happlied h.2) rfl
      · exact unsupported_holds _ _
    · exact unsupported_holds _ _

/-- The comparison of two buffers. -/
theorem text_memcmp {w : M.World} {op : BinaryOp} (hop : op.isEquality = true) {l r : String}
    (hl : M.Part l w) (hr : M.Part r w) (bytes : Nat) :
    M.Text s!"0 {op.symbol} memcmp({l}, {r}, {bytes})" w := by
  have hhead : Opening M.lined (M.Part · w) (M.Text · w) ("0 " ++ op.symbol ++ " memcmp(") := by
    cases op with
    | equ => exact M.text.opens (rfl : isShutOpening M.lined "0 == memcmp(".toList = true)
    | neq => exact M.text.opens (rfl : isShutOpening M.lined "0 != memcmp(".toList = true)
    | _ => cases hop
  exact ((hhead.arg hl rfl).arg hr rfl).close (M.part.number bytes) rfl

theorem binary_holds (hr : M.Each A recur) (e : Expr) (op : BinaryOp) {left right : ExprId}
    (hleft : A left) (hright : A right) (mode : Mode) :
    M.Holds C (binary recur e op left right mode) M.Text := by
  refine .look fun _ _ => .look fun _ _ => ?_
  split
  · rename_i hop
    refine .bind (hr hleft _) fun l _ => .bind (hr hright _) fun r _ => ?_
    split
    · exact .pure fun h => text_memcmp hop h.2.1.part h.1.part _
    · exact binaryText_holds _ _ (fun h => h.2.1.part) fun h => h.1.part
  · dsimp only
    split
    · exact unsupported_holds _ _
    · refine .bind (hr hleft _) fun l _ => .bind (hr hright _) fun r _ => ?_
      exact binaryText_holds _ _ (fun h => h.2.1.part) fun h => h.1.part

theorem slice_holds (hr : M.Each A recur) (e : Expr) {base : ExprId} (hb : A base) (lo : UInt32)
    (mode : Mode) : M.Holds C (slice recur e base lo mode) M.Text :=
  .bind (hr hb _) fun _ _ => masked_holds _ fun h =>
    ((M.part.opens rfl).arg h.1.part rfl).close (M.part.number _) rfl

theorem concat_holds (hr : M.Each A recur) {left right : ExprId} (hleft : A left)
    (hright : A right) (mode : Mode) : M.Holds C (concat recur left right mode) M.Text := by
  refine .look fun _ _ => .bind (hr hleft _) fun l _ => .bind (hr hright _) fun r _ => ?_
  exact .pure fun h => (((M.text.opens rfl).arg h.2.1.part rfl).arg (M.part.number _) rfl).close
    h.1.part rfl

theorem castText_holds (src dest : Ty) {inner : String} (h : ∀ {w}, C w → M.Text inner w) :
    M.Holds C (castText src dest inner) M.Text := by
  have hmasked := masked_holds dest fun hC => (h hC).part
  unfold castText
  split
  · exact .pure fun hC => (M.text.opens rfl).close (h hC).part rfl
  · exact .pure fun hC => (M.text.opens rfl).close (h hC).part rfl
  · split
    · exact hmasked
    · exact .pure h
  · exact .bind (.typeText _) fun _ _ => .pure fun hC =>
      ((M.text.opens rfl).arg hC.1.part rfl).close (h hC.2).part rfl
  · exact hmasked
  · split
    · exact .bind (.typeText _) fun _ _ => .pure fun hC =>
        ((M.text.opens rfl).arg hC.1.part rfl).close (h hC.2).part rfl
    · exact unsupported_holds _ _
  · exact unsupported_holds _ _

theorem cast_holds (hr : M.Each A recur) (dest : Ty) {operand : ExprId} (ho : A operand)
    (mode : Mode) : M.Holds C (cast recur dest operand mode) M.Text :=
  .look fun _ _ => .bind (hr ho _) fun _ _ => castText_holds _ _ And.left

theorem mux_holds (hr : M.Each A recur) {cond ifTrue ifFalse : ExprId} (hc : A cond)
    (ht : A ifTrue) (hf : A ifFalse) (mode : Mode) :
    M.Holds C (mux recur cond ifTrue ifFalse mode) M.Text := by
  refine .bind (hr hc _) fun c _ => .bind (hr ht _) fun t _ => .bind (hr hf _) fun f _ => ?_
  exact .pure fun h => (((M.text.opens rfl).arg h.2.2.1.part rfl).arg h.2.1.part rfl).close
    h.1.part rfl

/-! ### Constants and members -/

variable {p : Program} {id : ExprId}

theorem issue_of_expr {hint : String} (he : p.At id e) (name : String) :
    issue p hint id name =
      if hint = "value" then argumentCode p e name
      else if hint = "digest" then digestCode p e name
      else constantCode e name := by
  rw [issue, he]
  rfl

theorem const_ne {x other : String} (h : starts (· == 'c') other = false) :
    "const_0x" ++ x ≠ other := by
  rintro rfl
  rw [starts_append (by decide)] at h
  cases h

theorem constant_holds (hN : M.Naming) {value : Int} {base : UInt32}
    (he : env.At e.id e) (hnode : e.node = .constant value base) :
    M.Holds C (constant e value base) M.Text := by
  unfold constant
  split
  · rename_i width signed hty
    split
    · refine hN.nameOf (M.hint ?_) (fun m _ _ => ?_) (fun m => .pure And.left)
        (const_ne (by decide)) fun m => ?_
      · rw [String.toList_append, List.all_append, all_hexBytes (by decide)]
        decide
      · refine (Manner.announcesFixed m rfl rfl).close (fun _ => ?_) rfl
        refine M.piece.braced fun item hitem => ?_
        obtain ⟨b, _, rfl⟩ := List.mem_map.1 hitem
        exact M.piece.byte b
      · rw [issue_of_expr he, if_neg (const_ne (by decide)), if_neg (const_ne (by decide)),
          constantCode, hnode, hty]
    · exact .bind (.typeText _) fun _ _ => .pure fun h =>
        ((M.text.opens rfl).arg h.1.part rfl).last (M.part.inBase _ _)
  · exact .pure fun _ => (M.bare.decimal _).text

/-- A member of an enumeration goes by a name of the program. -/
theorem says_of_enumMemberName {ty : Ty} {member : String}
    (h : enumMemberName p ty member = .ok (some name)) : p.Says name := by
  have hmember : ∀ id,
      (do return ((← p.typeDecl id).member? member).map EnumMember.cName :
        Except ProgramError (Option String)) = .ok (some name) → p.Says name := by
    intro id h
    obtain ⟨t, ht, h⟩ := Program.bind_eq_ok_iff.1 h
    obtain ⟨m, hm, rfl⟩ := Option.map_eq_some_iff.1 (Except.ok.inj h)
    have hmem := Program.mem_of_lookup ht
    exact .enumMember hmem (List.mem_of_find?_eq_some hm)
  unfold enumMemberName at h
  split at h
  · exact hmember _ h
  · exact hmember _ h
  · cases h

theorem plainMember_holds (hr : M.Each A recur) {m : Member} (hname : M.Bare m.member)
    (hbase : A m.base) (mode : Mode) : M.Holds C (plainMember recur e m mode) M.Text := by
  refine .look fun name hmember => ?_
  split
  · exact .pure fun _ => (M.names (says_of_enumMemberName hmember)).text
  · exact .bind (hr hbase _) fun _ _ => .pure fun h => (M.text.start h.1 rfl).last hname.part

theorem member_holds (hA : M.Admits A) (hr : M.Each A recur) {m : Member}
    (he : env.At id e) (hnode : e.node = .member m) (hid : A id) (mode : Mode) :
    M.Holds C (member recur e m mode) M.Text := by
  have hmem := Program.mem_of_expr he
  unfold member
  split
  · rename_i ref hfield
    refine fieldText_holds hA.naming (fun l hl => hA.field hid he ?_ hl) mode
    simp [Expr.fieldRef?, Expr.member?, hnode, hfield]
  · split
    · exact .look fun i hi => .pure fun _ => (Manner.header hi).2.text
    · refine .look fun base hb => .ask _ ?_
      split
      · rename_i path hpath _
        have hname : M.Bare path.name := Manner.path hb hpath
        have hid : M.Bare (Target.fieldId ((env.program.typeName? base.ty).getD path.name)
          m.member) := M.texts (.parserField hmem hnode hb hpath)
        refine .inEnv (y := Pure.pure (parserFieldText env.program path base.ty m.member)) rfl
          (.pure fun _ => Manner.Bare.text ?_)
        exact (((M.bare.opens rfl).arg hname rfl).lengthen (hname.longer rfl) rfl).close hid rfl
      · exact plainMember_holds hr (M.names (.member hmem hnode))
          (hA.part hid ⟨e, he, hnode ▸ .base m⟩) mode

/-! ### Lists -/

/-- The parts of a number of bits that are known only later are put together from names. -/
def BitCount.Named (M : Manner env) (c : BitCount) : Prop := ∀ text ∈ c.dynamic, M.Bare text

namespace BitCount.Named

theorem bytes {c : BitCount} (h : BitCount.Named M c) : M.Bare c.bytes := by
  unfold BitCount.bytes
  split
  · exact M.bare.number _
  · refine (M.bare.opens rfl).close (M.bare.intercalate rfl fun part hpart => ?_) rfl
    rcases List.mem_append.1 hpart with hpart | hpart
    · split at hpart
      · rw [List.mem_singleton.1 hpart]
        exact M.bare.number _
      · cases hpart
    · exact h part hpart

theorem add {a b : BitCount} (ha : BitCount.Named M a) (hb : BitCount.Named M b) :
    BitCount.Named M (a.add b) := List.forall_mem_append.2 ⟨ha, hb⟩

theorem ofField {name : String} (h : M.Bare name) (f : Field) :
    BitCount.Named M (.ofField name f) := by
  unfold BitCount.ofField
  split
  · exact List.forall_mem_singleton.2 ((M.bare.opens rfl).close h rfl)
  · exact nofun

theorem foldl {fields : List (String × Field)} (h : ∀ f ∈ fields, M.Bare f.1) {c : BitCount}
    (hc : BitCount.Named M c) :
    BitCount.Named M (fields.foldl (fun span f => span.add (.ofField f.1 f.2)) c) := by
  induction fields generalizing c with
  | nil => exact hc
  | cons f fields ih =>
    rw [List.forall_mem_cons] at h
    exact ih h.2 (hc.add (.ofField h.1 f.2))

end BitCount.Named

theorem listFields_holds (items : List ExprId) : M.Holds C (listFields items) fun _ _ => True := by
  induction items generalizing C with
  | nil => exact .pure fun _ => trivial
  | cons item rest ih =>
    refine .look fun e _ => ?_
    split
    · exact .after ih fun _ _ => .pure fun _ => trivial
    · dsimp only
      split
      · exact .note_then _ ih
      · exact ih

theorem packetField_of_field {ref : FieldRef} {i : HeaderInstance} {f : Field}
    (hi : p.header ref.header = .ok i) (hf : p.field ref = .ok f) :
    ∃ l, p.packetField ref = .ok l ∧ l.header = i.name ∧ l.field = f.name := by
  obtain ⟨i', t, hi', ht, -⟩ := Program.field_eq_ok_iff.1 hf
  have heq : i' = i := Except.ok.inj ((Program.lookup_eq_ok_iff.2 hi').symm.trans hi)
  subst heq
  have ht : p.typeDecl i'.headerType = .ok t := Program.lookup_eq_ok_iff.2 ht
  simp only [Program.packetField, hi, ht, hf, bind, Except.bind]
  exact ⟨_, rfl, rfl, rfl⟩

theorem runFields_holds (run : FieldSpan) :
    M.Holds C (runFields run) fun fields _ => ∀ f ∈ fields, M.Bare f.1 := by
  refine .look fun i hi => .mapM fun index _ => ?_
  refine .look fun field hfield => .pure fun _ => ?_
  obtain ⟨l, hl, hheader, hname⟩ := packetField_of_field hi hfield
  rw [← hheader, ← hname]
  exact (Manner.packetField hl).fieldInstance

theorem copyRuns_holds {buffer : String} {offset : BitCount}
    (h : ∀ {w}, C w → M.Bare buffer ∧ BitCount.Named M offset) (runs : List FieldSpan) :
    M.Holds C (copyRuns buffer offset runs) fun r _ =>
      (∀ copy ∈ r.1, M.Bare copy) ∧ BitCount.Named M r.2 := by
  induction runs generalizing C offset with
  | nil => exact .pure fun hC => ⟨nofun, (h hC).2⟩
  | cons run rest ih =>
    unfold copyRuns
    refine .bind (runFields_holds run) fun fields _ => ?_
    split
    · exact ih fun hC => h hC.2
    · rename_i first field others _
      have hwidth : (∀ f ∈ (first, field) :: others, M.Bare f.1) → BitCount.Named M
          (others.foldl (fun span f => span.add (.ofField f.1 f.2)) (.ofField first field)) := by
        intro hfields
        rw [List.forall_mem_cons] at hfields
        exact .foldl hfields.2 (.ofField hfields.1 field)
      refine .bind (ih fun hC => ⟨(h hC.2).1, (h hC.2).2.add (hwidth hC.1)⟩) fun r _ => ?_
      refine .pure fun ⟨hcopies, hfields, hC⟩ => ?_
      obtain ⟨hb, ho⟩ := h hC
      refine ⟨List.forall_mem_cons.2 ⟨?_, hcopies.1⟩, hcopies.2⟩
      exact ((((M.bare.opens rfl).arg hb rfl).arg ho.bytes rfl).arg (hfields _ (.head _)) rfl).close
        (hwidth hfields).bytes rfl

theorem bufferCode_holds (items : List ExprId) {buffer : String}
    (h : ∀ {w}, C w → M.Bare buffer) : M.Holds C (bufferCode items buffer) M.Code := by
  refine .after (listFields_holds items) fun refs _ => ?_
  have hempty : BitCount.Named M .empty := nofun
  refine .bind (copyRuns_holds (fun hC => ⟨h hC, hempty⟩) _) fun r _ => .pure fun ⟨hr, hC⟩ => ?_
  have hb := h hC
  refine M.code.unlines ?_ (List.forall_mem_cons.2 ⟨?_, fun copy hcopy => (hr.1 copy hcopy).piece⟩)
  · exact (((M.bare.opens rfl).lengthen (hb.longer rfl) rfl).close hr.2.bytes rfl).code
  · exact (((M.bare.opens rfl).arg hb rfl).joined (hb.longer rfl)).piece

/-- A list whose buffer is named and marked like anything else. -/
theorem bufferText_holds
    (hname : ∀ {C : M.World → Prop}, M.Holds C (nameOf "buffer" id) fun m _ => M.Bare m)
    (hfirst : ∀ {C : M.World → Prop}, M.Holds C (firstTime id) fun _ _ => True)
    (items : List ExprId) : M.Holds C (bufferText id items) M.Text := by
  refine .bind hname fun name _ => .after hfirst fun first _ => ?_
  have htext : ∀ {w}, M.Bare name → M.Text
      s!"(struct uint8_buffer_s) \x7b .buffer = {name}, .buffer_size = {name}_size \x7d" w :=
    fun h => (((M.bare.opens rfl).arg h rfl).joined (h.longer rfl)).text
  split
  · exact .bind (bufferCode_holds items And.left) fun code _ =>
      .hoist_then And.left (.pure fun h => htext h.2.1)
  · exact .pure fun h => htext h.1

/-! ### Structs -/

theorem structLines_holds (hr : M.Each A recur) {components : List Component}
    (hvalue : ∀ c ∈ components, A c.value) (hname : ∀ c ∈ components, M.Bare c.name)
    (mode : Mode) :
    M.Holds C (structLines recur mode components) fun lines w => ∀ line ∈ lines, M.Part line w := by
  induction components generalizing C with
  | nil => exact .pure fun _ => nofun
  | cons component rest ih =>
    rw [List.forall_mem_cons] at hvalue hname
    have hrest : ∀ {D : M.World → Prop} line, M.Holds (fun w => M.Part line w ∧ D w)
        (do return line :: (← structLines recur mode rest)) fun lines w =>
          ∀ line ∈ lines, M.Part line w := fun line =>
      .bind (ih hvalue.2 hname.2) fun _ _ => .pure fun h => List.forall_mem_cons.2 ⟨h.2.1, h.1⟩
    refine .look fun e _ => ?_
    dsimp only
    split
    · rename_i width _
      refine .bind (.pure fun _ => Manner.Bare.part ?_) fun line _ => hrest line
      exact ((M.bare.opens rfl).arg hname.1 rfl).joined
        (Manner.Bare.longer (M.bare.number width) rfl)
    · refine .bind (hr hvalue.1 _) fun value _ => .bind (.pure fun h => ?_) fun line _ => hrest line
      exact ((M.part.opens rfl).arg hname.1.part rfl).close h.1.part rfl

theorem structInit_holds (hr : M.Each A recur) (hlined : M.lined = true) (e : Expr)
    {components : List Component} (hvalue : ∀ c ∈ components, A c.value)
    (hname : ∀ c ∈ components, M.Bare c.name) (mode : Mode) :
    M.Holds C (structInit recur e components mode) M.Text := by
  refine .bind (.typeText _) fun type _ => ?_
  refine .bind (structLines_holds hr hvalue hname mode) fun lines _ => .config (.pure fun h => ?_)
  exact (hlined ▸ M.text).block ((M.text.opens rfl).close h.2.1.part rfl) h.1 _

/-! ### Transitions -/

section Select

variable (hA : M.Admits A) (hS : M.Supplied) (hr : M.Each A recur)

include hA hS hr in
theorem declareKey_holds {key : ExprId} (hkey : A key) {name : String}
    (h : ∀ {w}, C w → M.Bare name) : M.Holds C (declareKey recur key name) fun _ _ => True := by
  refine .look fun k hk => ?_
  split
  · split
    · refine .bind (.typeText _) fun type htype => .bind (hr hkey _) fun value _ => ?_
      exact .hoist fun hC => hS.announced (h hC.2.2)
        (Manner.announcesValue _ (typeText_returns htype) hC.1.piece)
    · split
      · split
        · rename_i ref href
          exact .look fun l hl => .hoist fun hC => hS.announced (h hC)
            ((hA.field hkey hk href hl).packetBuffer ..)
        · exact .note _
      · exact .note _
  · exact .note _

include hA hS hr in
theorem keyNames_holds (declare : Bool) {keys : List ExprId} (hkeys : ∀ key ∈ keys, A key) :
    M.Holds C (keyNames recur declare keys) fun names _ => ∀ name ∈ names, M.Bare name := by
  induction keys generalizing C with
  | nil => exact .pure fun _ => nofun
  | cons key rest ih =>
    rw [List.forall_mem_cons] at hkeys
    refine .bind (hS.nameOf (M.hint (by decide)) (by decide)) fun name _ => ?_
    have hrest : M.Holds (fun w => M.Bare name ∧ C w)
        (do return name :: (← keyNames recur declare rest)) fun names _ =>
          ∀ name ∈ names, M.Bare name :=
      .bind (ih hkeys.2) fun _ _ => .pure fun h => List.forall_mem_cons.2 ⟨h.2.1, h.1⟩
    dsimp only
    split
    · exact .after (declareKey_holds hA hS hr hkeys.1 And.left) fun _ _ => hrest
    · exact hrest

include hS in
theorem wideCondition_holds (keyTy : Ty) (width : Nat) {keyName : String}
    (h : ∀ {w}, C w → M.Bare keyName) (c : Expr) :
    M.Holds C (wideCondition keyTy width keyName c) M.Part := by
  unfold wideCondition
  split
  · dsimp only
    refine .bind (hS.nameOf (M.hint (by decide)) (by decide)) fun name _ => ?_
    refine .hoist_then (fun hC => hS.announced hC.1 ?_) (.pure fun hC => Manner.Bare.part ?_)
    · exact (Manner.announcesBytes name _ rfl rfl).close (fun _ => M.piece.byteArray _ _ _) rfl
    · exact (((M.bare.opens rfl).arg (h hC.2) rfl).arg hC.1 rfl).close (M.bare.number _) rfl
  · exact .note_then _ (.pure fun _ => M.part.fixed rfl)

include hA hr in
theorem narrowCondition_holds (keyTy : Ty) {keyName : String} (h : ∀ {w}, C w → M.Bare keyName)
    {component : ExprId} {c : Expr} (hc : env.At component c) (hid : A component) :
    M.Holds C (narrowCondition recur keyTy keyName component c) M.Part := by
  have hplain : M.Holds C (do
      let value ← recur component .value
      return s!"{keyName} == {value}") M.Part := .bind (hr hid _) fun _ _ => .pure fun hC =>
    (M.part.start (h hC.2).part rfl).last hC.1.part
  unfold narrowCondition
  split
  · rename_i low high hnode
    refine .bind (hr (hA.part hid ⟨c, hc, hnode ▸ .low low high⟩) _) fun l _ => ?_
    refine .bind (hr (hA.part hid ⟨c, hc, hnode ▸ .high _ high⟩) _) fun u _ => .pure fun hC => ?_
    have hkey := h hC.2.2
    exact (((M.part.start hC.2.1.part rfl).arg hkey.part rfl).arg hkey.part rfl).last hC.1.part
  · rename_i value mask hnode
    refine .bind (hr (hA.part hid ⟨c, hc, hnode ▸ .maskValue value mask⟩) _) fun v _ => ?_
    refine .bind (hr (hA.part hid ⟨c, hc, hnode ▸ .mask _ mask⟩) _) fun m _ => .pure fun hC => ?_
    exact ((((M.part.opens rfl).arg hC.2.1.part rfl).arg hC.1.part rfl).arg (h hC.2.2).part
      rfl).close hC.1.part rfl
  · dsimp only
    split
    · exact .note_then _ hplain
    · exact hplain

include hA hS hr in
theorem keyConditions_holds {l : List ((ExprId × String) × ExprId)}
    (hkeys : ∀ {w}, C w → ∀ q ∈ l, M.Bare q.1.2) (hl : ∀ q ∈ l, A q.2) :
    M.Holds C (keyConditions recur l) fun texts w => ∀ text ∈ texts, M.Part text w := by
  induction l generalizing C with
  | nil => exact .pure fun _ => nofun
  | cons q rest ih =>
    obtain ⟨⟨key, name⟩, component⟩ := q
    rw [List.forall_mem_cons] at hl
    have hkey : ∀ {w}, C w → M.Bare name := fun hC => hkeys hC _ (.head rest)
    have hcondition : M.Holds C (keyCondition recur key name component) fun o w =>
        ∀ text ∈ o.toList, M.Part text w := by
      refine .look fun k _ => .look fun c hc => ?_
      dsimp only
      split
      · exact .pure fun _ => nofun
      · split
        · exact .bind (wideCondition_holds hS _ _ hkey _) fun _ _ => .pure fun h =>
            List.forall_mem_singleton.2 h.1
        · exact .bind (narrowCondition_holds hA hr _ hkey hc hl.1) fun _ _ => .pure fun h =>
            List.forall_mem_singleton.2 h.1
    refine .bind hcondition fun o _ => ?_
    refine .bind (ih (fun hC q hq => hkeys hC.2 q (.tail _ hq)) hl.2) fun texts _ => ?_
    exact .pure fun h => List.forall_mem_append.2 ⟨h.2.1, h.1⟩

include hA hS hr in
theorem branch_holds {keys : List (ExprId × String)}
    (hkeys : ∀ {w}, C w → ∀ q ∈ keys, M.Bare q.2) {case : SelectArm} (hstate : M.Bare case.state)
    (hkeyset : A case.keyset) : M.Holds C (branch recur keys case) M.Text := by
  refine .look fun parts hparts => ?_
  refine .bind (keyConditions_holds hA hS hr (fun hC q hq => hkeys hC _ (List.of_mem_zip hq).1)
    fun q hq => ?_) fun conditions _ => .pure fun h => ?_
  · rcases reaches_of_keysetParts hparts _ (List.of_mem_zip hq).2 with heq | hp
    · exact heq ▸ hkeyset
    · exact hA.part hkeyset hp
  · refine ((M.text.opens rfl).arg ?_ rfl).close (hS.state hstate).part rfl
    split
    · exact M.part.fixed rfl
    · exact M.part.intercalate rfl h.1

include hA hS hr in
theorem transition_holds (hlined : M.lined = true) {id : ExprId}
    (hfirst : ∀ {C : M.World → Prop}, M.Holds C (firstTime id) fun _ _ => True)
    {keys : List ExprId} {arms : List SelectArm} (hkeys : ∀ key ∈ keys, A key)
    (hstates : ∀ arm ∈ arms, M.Bare arm.state) (hkeysets : ∀ arm ∈ arms, A arm.keyset) :
    M.Holds C (transition recur id keys arms) M.Text := by
  refine .after hfirst fun declare _ => ?_
  refine .bind (keyNames_holds hA hS hr declare hkeys) fun names _ => ?_
  refine .bind (.mapM fun arm harm => branch_holds hA hS hr (fun h q hq => ?_) (hstates arm harm)
    (hkeysets arm harm)) fun branches _ => .pure fun h => ?_
  · exact h.1 _ (List.of_mem_zip hq).2
  · cases branches with
    | nil => exact M.bare.empty.text
    | cons branch branches =>
      have hall := List.forall_mem_cons.1 h.1
      exact (hlined ▸ M.text).intercalate rfl hall.1 fun other hother => (hall.2 other hother).part

end Select

end PacketC.Lower
