import PacketC.Proofs.Lower.Descent
import PacketC.Proofs.Scalar.Tree

/-! Where the leaves of scalar expressions are read from. Each leaf is written as the text of a
place, and no two places are read as the same term, so that a store can hold a value at each of
them. -/

namespace PacketC

open Code

/-! ### Actions that only give a result -/

namespace Lower

variable {p : Program} {block : Option BlockId} {α β : Type}

/-- Wherever the action is run in the program and the block, it returns the result and leaves
everything as it was. -/
def Gives (p : Program) (block : Option BlockId) (x : LowerM α) (a : α) : Prop :=
  ∀ env : Env, env.program = p → env.block = block → x env = (pure a : LowerM α) env

namespace Gives

theorem pure (a : α) : Gives p block (Pure.pure a) a := fun _ _ _ => rfl

theorem bind {x : LowerM α} {f : α → LowerM β} {a : α} {b : β} (hx : Gives p block x a)
    (hf : Gives p block (f a) b) : Gives p block (x >>= f) b :=
  fun env hp hb => (bind_of_pure (hx env hp hb)).trans (hf env hp hb)

theorem look {f : Program → Except ProgramError α} {a : α} (h : f p = .ok a) :
    Gives p block (Lower.look f) a := by
  rintro env rfl rfl
  exact look_of_ok h

theorem ask (view : Program → α) : Gives p block (Lower.ask view) (view p) := by
  rintro env rfl rfl
  rfl

theorem isLocal (d : DeclId) :
    Gives p block (Lower.isLocal d) (block.any fun b => p.isLocalOf b d) := by
  rintro env rfl rfl
  rfl

theorem typeText (w : UInt32) (signed : Bool) :
    Gives p block (Lower.typeText (.bits w signed)) (Ty.bitsText .parameter w.toNat signed) := by
  intro env _ _
  funext s
  exact congrArg (Except.ok _, ·) s.note_nil

/-- An expression gives what its node gives. -/
theorem expr (wf : p.WellFormed) {i : ExprId} {e : Expr} (he : p.At i e) {mode : Mode}
    {text : String} (h : Gives p block (nodeText Lower.expr e mode) text) :
    Gives p block (Lower.expr i mode) text := by
  rintro env rfl rfl
  rw [expr_eq_nodeText wf he]
  exact h env rfl rfl

end Gives

end Lower

/-! ### Types -/

/-- The scalars that hold at most 32 bits. -/
theorem bitsText_scalar {width : Nat} (h : width ≤ 32) (signed : Bool) :
    ∃ n, (Container.ofWidth width).bits? = some n ∧ width ≤ n ∧
      IntType.ofName? (Ty.bitsText .parameter width signed) = some ⟨signed, n⟩ := by
  have htext : ∀ n, (Container.ofWidth width).bits? = some n → Ty.bitsText .parameter width signed =
      (if signed then "int" else "uint") ++ toString n ++ "_t" := fun n hn => by
    rw [Ty.bitsText, hn]
    rfl
  obtain ⟨n, hn, hle, hmem⟩ : ∃ n, (Container.ofWidth width).bits? = some n ∧ width ≤ n ∧
      (n = 8 ∨ n = 16 ∨ n = 32) := by
    unfold Container.ofWidth
    split
    · exact ⟨8, rfl, ‹_›, .inl rfl⟩
    split
    · exact ⟨16, rfl, ‹_›, .inr (.inl rfl)⟩
    · exact ⟨32, rfl, h, .inr (.inr rfl)⟩
  refine ⟨n, hn, hle, ?_⟩
  rw [htext n hn]
  rcases hmem with rfl | rfl | rfl <;> cases signed <;> rfl

/-! ### Places -/

inductive Place where
  | free (x : String)
  | ofBlock (x : String)
  | packetField (header field : String)
  | parserField (header field : String)

namespace Place

def text : Place → String
  | .free x => x
  | .ofBlock x => "local_vars->" ++ x
  | .packetField header field =>
    "(GET_INT32_AUTO_PACKET(pd, " ++ header ++ ", " ++ field ++ "))"
  | .parserField header field =>
    "(GET_INT32_AUTO_BUFFER(pstate->" ++ header ++ ",pstate->" ++ header ++ "_var, " ++ field ++
      "))"

def term : Place → Term
  | .free x => .name x
  | .ofBlock x => .arrow (.name "local_vars") x
  | .packetField header field =>
    .call "GET_INT32_AUTO_PACKET" [.name "pd", .name header, .name field]
  | .parserField header field =>
    .call "GET_INT32_AUTO_BUFFER"
      [.arrow (.name "pstate") header, .arrow (.name "pstate") (header ++ "_var"), .name field]

theorem term_injective {a b : Place} (h : a.term = b.term) : a = b := by
  cases a <;> cases b <;> simp_all [term]

def Plain : Place → Prop
  | .free x => Identifier x
  | .ofBlock x => IsWord x
  | .packetField header field => Label header ∧ Label field
  | .parserField header field => IsWord header ∧ Label field

theorem eval_term {place : Place} (h : place.Plain) (σ : Store) :
    place.term.eval σ = σ place.term := by
  cases place with
  | free x => exact Identifier.eval_name h σ
  | ofBlock | packetField | parserField => rfl

theorem text_ofBlock (x : String) : (ofBlock x).text = "local_vars" ++ "->" ++ x := by
  have hopen : "local_vars->" = "local_vars" ++ "->" := rfl
  show "local_vars->" ++ x = _
  rw [hopen]

theorem text_packetField (header field : String) : (packetField header field).text =
    "(" ++ ("GET_INT32_AUTO_PACKET" ++ "(" ++ ("pd" ++ ", " ++ (header ++ ", " ++ field)) ++ ")") ++
      ")" := by
  have hopen : "(GET_INT32_AUTO_PACKET(pd, " =
    "(" ++ "GET_INT32_AUTO_PACKET" ++ "(" ++ "pd" ++ ", " := rfl
  have hclose : "))" = ")" ++ ")" := rfl
  show "(GET_INT32_AUTO_PACKET(pd, " ++ header ++ ", " ++ field ++ "))" = _
  rw [hopen, hclose]
  simp only [String.append_assoc]

theorem text_parserField (header field : String) : (parserField header field).text =
    "(" ++ ("GET_INT32_AUTO_BUFFER" ++ "(" ++ ("pstate" ++ "->" ++ header ++ "," ++
      ("pstate" ++ "->" ++ (header ++ "_var") ++ ", " ++ field)) ++ ")") ++ ")" := by
  have hopen : "(GET_INT32_AUTO_BUFFER(pstate->" =
    "(" ++ "GET_INT32_AUTO_BUFFER" ++ "(" ++ "pstate" ++ "->" := rfl
  have hnext : ",pstate->" = "," ++ "pstate" ++ "->" := rfl
  have hlast : "_var, " = "_var" ++ ", " := rfl
  have hclose : "))" = ")" ++ ")" := rfl
  show "(GET_INT32_AUTO_BUFFER(pstate->" ++ header ++ ",pstate->" ++ header ++ "_var, " ++ field ++
    "))" = _
  rw [hopen, hnext, hlast, hclose]
  simp only [String.append_assoc]

theorem operand {place : Place} (h : place.Plain) : Operand place.text place.term := by
  have hcomma : Symbol ", " [.one ','] := by decide
  cases place with
  | free x => exact (Identifier.label h).operand
  | ofBlock x =>
    have hbase : Label "local_vars" := by decide
    rw [text_ofBlock]
    exact operand_arrow hbase h
  | packetField header field =>
    have hget : Label "GET_INT32_AUTO_PACKET" := by decide
    have hpd : Label "pd" := by decide
    rw [text_packetField]
    have hargs := (h.2.operand.arguments.cons hcomma h.1.operand).cons hcomma hpd.operand
    exact (hargs.call hget).paren
  | parserField header field =>
    have hget : Label "GET_INT32_AUTO_BUFFER" := by decide
    have hbase : Label "pstate" := by decide
    have hnext : Symbol "," [.one ','] := by decide
    have hvar : IsWord (header ++ "_var") := h.1.append (by decide)
    rw [text_parserField]
    have hargs := (h.2.operand.arguments.cons hcomma (operand_arrow hbase hvar)).cons hnext
      (operand_arrow hbase h.1)
    exact (hargs.call hget).paren

end Place

/-! ### Leaves -/

section Leaves

variable {p : Program} {block : Option BlockId}

open Lower

theorem pathText_gives (x : Path) :
    Gives p block (pathText x .value) (Place.free x.name).text ∨
      Gives p block (pathText x .value) (Place.ofBlock x.name).text := by
  unfold pathText
  cases hd : x.decl with
  | none => exact .inl (.pure _)
  | some d =>
    cases hl : block.any fun b => p.isLocalOf b d with
    | false => exact .inl (.bind (.isLocal d) (by rw [hl]; exact .pure _))
    | true => exact .inr (.bind (.isLocal d) (by rw [hl]; exact .pure _))

theorem label_headerInstance {x : String} (h : IsWord x) : Label (Target.headerInstance x) := by
  have hmark : Label "header_instance_" := by decide
  exact hmark.append (by decide) h.chars

theorem label_fieldId {t f : String} (ht : IsWord t) (hf : IsWord f) :
    Label (Target.fieldId t f) := by
  have hmark : Label "field_" := by decide
  have hbar : "_".toList.all isWordChar = true := by decide
  unfold Target.fieldId
  rw [String.append_assoc, String.append_assoc]
  refine hmark.append (by decide) ?_
  simp only [String.toList_append, List.all_append, ht.chars, hbar, hf.chars, Bool.and_self]

theorem size_ty_le (τ : Scalar) : τ.ty.width.getD 0 ≤ 32 := by
  cases τ with
  | bit w => exact w.le
  | bool => exact Nat.zero_le _

theorem isWord_typeName (hn : p.PlainNames) {x : String} (hx : IsWord x) (ty : Ty) :
    IsWord ((p.typeName? ty).getD x) := by
  cases h : p.typeName? ty with
  | none => exact hx
  | some name =>
    simp only [Program.typeName?, Option.bind_eq_bind, Option.bind_eq_some_iff] at h
    obtain ⟨id, -, t, ht, hname⟩ := h
    cases hname
    exact (hn.types t (Array.mem_of_getElem? ht)).toIsWord

theorem fieldText_gives (hn : p.PlainNames) {ref : FieldRef} {f : Field}
    (hf : p.field ref = .ok f) (hsize : f.size ≤ 32) :
    ∃ place : Place, place.Plain ∧ Gives p block (fieldText ref .value) place.text := by
  obtain ⟨h, t, hh, ht, hget⟩ := Program.field_eq_ok_iff.1 hf
  have hheader := hn.headers h (Array.mem_of_getElem? hh)
  have htype := hn.types t (Array.mem_of_getElem? ht)
  have hfield := hn.fields t (Array.mem_of_getElem? ht) f (List.mem_of_getElem? hget)
  obtain ⟨l, hl, hid, hfid, hwidth⟩ : ∃ l, p.packetField ref = .ok l ∧ Label l.headerId ∧
      Label l.fieldId ∧ l.width = f.size := by
    have hh' : p.header ref.header = .ok h := Program.lookup_eq_ok_iff.2 hh
    have ht' : p.typeDecl h.headerType = .ok t := Program.lookup_eq_ok_iff.2 ht
    unfold Program.packetField
    simp only [hh', ht', hf, bind, Except.bind]
    refine ⟨_, rfl, ?_, label_fieldId htype.toIsWord hfield.toIsWord, rfl⟩
    show Label (if h.isMetadata then _ else _)
    split
    · decide
    · exact label_headerInstance hheader.toIsWord
  have hle : ¬ 32 < l.width := by
    rw [hwidth]
    exact Nat.not_lt.2 hsize
  refine ⟨.packetField l.headerId l.fieldId, ⟨hid, hfid⟩, .bind (.look hl) ?_⟩
  rw [if_neg (by decide), if_neg hle]
  exact .pure _

/-- Where a field of a header that the parser keeps is read from. -/
def Member.parserPlace (p : Program) (m : Member) (x : Path) (ty : Ty) : Place :=
  .parserField x.name (Target.fieldId ((p.typeName? ty).getD x.name) m.member)

variable {i : ExprId}

theorem parserPlace_gives (wf : p.WellFormed) (hn : p.PlainNames) {ty τ : Ty} {m : Member}
    {x : Path} (h : p.Is i τ (.member m)) (hfield : m.field = none) (hheader : m.header = none)
    (hbase : p.Is m.base ty (.path x)) (hty : isHeaderTy p ty = true) :
    (m.parserPlace p x ty).Plain ∧
      Gives p block (Lower.expr i .value) (m.parserPlace p x ty).text := by
  obtain ⟨id, he⟩ := h
  obtain ⟨base, hbase⟩ := hbase
  have hx : Identifier x.name := hn.paths _ (Program.mem_of_expr hbase) x rfl
  have hm : Identifier m.member := hn.members _ (Program.mem_of_expr he) m rfl
  have hname : IsWord ((p.typeName? ty).getD x.name) := isWord_typeName hn hx.toIsWord ty
  refine ⟨⟨hx.toIsWord, label_fieldId hname hm.toIsWord⟩, .expr wf he ?_⟩
  show Gives p block (member Lower.expr _ m .value) _
  unfold member
  rw [hfield, hheader]
  refine .bind (.look hbase) (.bind (.ask _) ?_)
  rw [hty]
  exact .ask _

/-- What is read from somewhere, as for a leaf, at any type. -/
inductive Program.Reads (p : Program) (i : ExprId) (ty : Ty) : Prop
  | path (x : Path) (h : p.Is i ty (.path x))
  | packetField (m : Member) (ref : FieldRef) (f : Field) (h : p.Is i ty (.member m))
      (href : m.field = some ref) (hf : p.field ref = .ok f) (hty : f.ty = ty)
  | parserField (m : Member) (x : Path) (base : Ty) (h : p.Is i ty (.member m))
      (hfield : m.field = none) (hheader : m.header = none) (hbase : p.Is m.base base (.path x))
      (hty : Lower.isHeaderTy p base = true)

theorem Program.Reads.exists_expr {ty : Ty} (h : p.Reads i ty) :
    ∃ e, p.At i e ∧ e.ty = ty := by
  cases h with
  | path _ h | packetField _ _ _ h | parserField _ _ _ h => exact ⟨_, h.choose_spec, rfl⟩

theorem Program.Reads.place (wf : p.WellFormed) (hn : p.PlainNames) {i : ExprId} {ty : Ty}
    (h : p.Reads i ty) (hsize : ty.width.getD 0 ≤ 32) :
    ∃ place : Place, place.Plain ∧ Gives p block (Lower.expr i .value) place.text := by
  cases h with
  | path x h =>
    obtain ⟨id, he⟩ := h
    have hx : Identifier x.name := hn.paths _ (Program.mem_of_expr he) x rfl
    rcases pathText_gives x with hg | hg
    · exact ⟨.free x.name, hx, .expr wf he hg⟩
    · exact ⟨.ofBlock x.name, hx.toIsWord, .expr wf he hg⟩
  | packetField m ref f h href hf hty =>
    obtain ⟨id, he⟩ := h
    obtain ⟨place, hplain, hg⟩ := fieldText_gives hn hf (by rw [Field.size, hty]; exact hsize)
    refine ⟨place, hplain, .expr wf he ?_⟩
    show Gives p block (member Lower.expr _ m .value) place.text
    unfold member
    rw [href]
    exact hg
  | parserField m x base h hfield hheader hbase hty =>
    exact ⟨_, parserPlace_gives wf hn h hfield hheader hbase hty⟩

theorem Program.Leaf.reads {τ : Scalar} (h : p.Leaf i τ) : p.Reads i τ.ty := by
  cases h with
  | path x h => exact .path x h
  | packetField m ref f h href hf hty => exact .packetField m ref f h href hf hty
  | parserField m x ty h hfield hheader hbase hty =>
    exact .parserField m x ty h hfield hheader hbase hty

theorem Program.Leaf.place (wf : p.WellFormed) (hn : p.PlainNames) {τ : Scalar} (h : p.Leaf i τ) :
    ∃ place : Place, place.Plain ∧ Gives p block (Lower.expr i .value) place.text :=
  h.reads.place wf hn (size_ty_le τ)

end Leaves

end PacketC
