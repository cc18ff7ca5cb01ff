import PacketC.Proofs.Wide.Equality

/-! Which operators of the target bit strings above 32 bits meet. Such a bit string is a buffer of
bytes, and the operators of the target take scalars. Arithmetic with a buffer is reported, and
equality compares the bytes. Slices, concatenations, casts and the fields that a parser keeps are
not looked at; where these stay away from buffers, and no error is recorded, the text of an
expression applies operators to scalars only, and it is a buffer exactly if its type says so. -/

namespace PacketC

/-! ### Kinds -/

namespace Code

inductive Kind where
  | scalar | buffer
  deriving DecidableEq

/-- A term that applies operators to scalars and compares buffers with buffers, if its leaves have
the kinds that are given. -/
inductive Term.HasKind (leaf : Term → Kind → Prop) : Term → Kind → Prop
  | leaf {e : Term} {k : Kind} (h : leaf e k) : HasKind leaf e k
  | num (n : Nat) : HasKind leaf (.num n) .scalar
  | bool (b : Bool) : HasKind leaf (.name (if b then "true" else "false")) .scalar
  | unary (op : UnOp) {e : Term} (h : HasKind leaf e .scalar) : HasKind leaf (.unary op e) .scalar
  | binary (op : Op) {l r : Term} (hl : HasKind leaf l .scalar) (hr : HasKind leaf r .scalar) :
      HasKind leaf (.binary op l r) .scalar
  | cast (ty : IntType) {e : Term} (h : HasKind leaf e .scalar) : HasKind leaf (.cast ty e) .scalar
  | cond {c t f : Term} {k : Kind} (hc : HasKind leaf c .scalar) (ht : HasKind leaf t k)
      (hf : HasKind leaf f k) : HasKind leaf (.cond c t f) k
  | memcmp {l r : Term} (hl : HasKind leaf l .buffer) (hr : HasKind leaf r .buffer) (n : Nat) :
      HasKind leaf (.call "memcmp" [l, r, .num n]) .scalar

/-- The array that a piece of code begins by declaring. -/
def arrayOf (piece : String) : Option String :=
  ((items piece).bind List.head?).bind fun item =>
    match item with
    | .array x _ _ => some x
    | _ => none

end Code

open Code Lower

def Ty.kind (ty : Ty) : Kind := if 32 < ty.width.getD 0 then .buffer else .scalar

/-- A cast between scalars, or one that leaves a buffer as it is. -/
def Ty.KeepsKind (src dest : Ty) : Prop :=
  src.kind = .scalar ∧ dest.kind = .scalar ∨ ∃ w v : UInt32, src = .bits w false ∧
    dest = .bits v false ∧ 32 < w.toNat ∧ w.toNat ≤ v.toNat

namespace Program

/-- The member of a struct, which is not one of a header, of metadata or of an enumeration. -/
structure Selects (p : Program) (i : ExprId) (ty : Ty) (m : Member) : Prop where
  is : p.Is i ty (.member m)
  field : m.field = none
  header : m.header = none
  enum : enumMemberName p ty m.member = .ok none
  base : ∃ b, p.At m.base b ∧ isHeaderTy p b.ty = false

/-- A path, or a member of a struct that is read like one. -/
inductive Chain (p : Program) : ExprId → Ty → Type
  | path {i : ExprId} {ty : Ty} (x : Path) (h : p.Is i ty (.path x)) : Chain p i ty
  | member {i : ExprId} {ty : Ty} (σ : Ty) (m : Member) (h : p.Selects i ty m)
      (base : Chain p m.base σ) : Chain p i ty

namespace Chain

variable {p : Program} (block : Option BlockId)

def text : {i : ExprId} → {ty : Ty} → p.Chain i ty → String
  | _, _, .path x _ => (x.place p block).text
  | _, _, .member _ m _ base => base.text ++ "." ++ m.member

def term : {i : ExprId} → {ty : Ty} → p.Chain i ty → Term
  | _, _, .path x _ => (x.place p block).term
  | _, _, .member _ m _ base => .dot base.term m.member

variable {i : ExprId} {ty : Ty}

theorem exists_expr (c : p.Chain i ty) : ∃ e, p.At i e ∧ e.ty = ty := by
  cases c with
  | path _ h => exact ⟨_, h.choose_spec, rfl⟩
  | member _ _ h => exact ⟨_, h.is.choose_spec, rfl⟩

theorem reference (hn : p.PlainNames) (c : p.Chain i ty) :
    Reference (c.text block) (c.term block) := by
  induction c with
  | path x h =>
    obtain ⟨id, he⟩ := h
    have hx : Identifier x.name := hn.paths _ (mem_of_expr he) x rfl
    have hbase : Label "local_vars" := by decide
    show Reference (x.place p block).text (x.place p block).term
    unfold Path.place
    split
    · rw [Place.text_ofBlock]
      exact hbase.reference.arrow hx.toIsWord
    · exact hx.label.reference
  | member σ m h base ih =>
    obtain ⟨id, he⟩ := h.is
    exact ih.dot (hn.members _ (mem_of_expr he) m rfl).toIsWord

theorem gives (wf : p.WellFormed) (c : p.Chain i ty) :
    Gives p block (Lower.expr i .value) (c.text block) := by
  induction c with
  | path x h =>
    obtain ⟨id, he⟩ := h
    exact .expr wf he x.place_gives
  | member σ m h base ih =>
    obtain ⟨id, he⟩ := h.is
    obtain ⟨b, hb, hstruct⟩ := h.base
    refine .expr wf he ?_
    show Gives p block (Lower.member Lower.expr _ m .value) _
    rw [Lower.member, h.field, h.header]
    refine .bind (.look hb) (.bind (.ask _) ?_)
    rw [hstruct]
    cases b.path? <;> exact .bind (.look (f := (enumMemberName · _ _)) h.enum) (.bind ih (.pure _))

end Chain

/-- An expression that is made of operators. The operands of `==` and `!=` are of one type, `!`,
`&&` and `||` take truth values, and no other operator does. -/
inductive Operation (p : Program) : ExprId → Ty → Type
  | place {i : ExprId} {ty : Ty} (c : p.Chain i ty) : Operation p i ty
  | field {i : ExprId} {ty : Ty} (f : p.FieldAt i ty) : Operation p i ty
  | parserField {i : ExprId} {ty : Ty} (base : Ty) (m : Member) (x : Path)
      (h : p.Is i ty (.member m)) (hfield : m.field = none) (hheader : m.header = none)
      (hbase : p.Is m.base base (.path x)) (hty : isHeaderTy p base = true) : Operation p i ty
  | constant {i : ExprId} {w : UInt32} {signed : Bool} (value : Int) (base : UInt32)
      (h : p.Is i (.bits w signed) (.constant value base)) : Operation p i (.bits w signed)
  | number {i : ExprId} (n : Nat) (base : UInt32) (h : p.Is i .infInt (.constant n base)) :
      Operation p i .infInt
  | bool {i : ExprId} (b : Bool) (h : p.Is i .bool (.bool b)) : Operation p i .bool
  | not {i j : ExprId} (h : p.Is i .bool (.unary .lnot j)) (x : Operation p j .bool) :
      Operation p i .bool
  | unary {i j : ExprId} {ty : Ty} (op : UnaryOp) (hop : op ≠ .lnot) (hty : ty ≠ .bool)
      (h : p.Is i ty (.unary op j)) (x : Operation p j ty) : Operation p i ty
  | equality {i j k : ExprId} {ty : Ty} (op : BinaryOp) (hop : op.isEquality = true)
      (h : p.Is i .bool (.binary op j k)) (x : Operation p j ty) (y : Operation p k ty) :
      Operation p i .bool
  | logic {i j k : ExprId} (op : BinaryOp) (hop : op = .land ∨ op = .lor)
      (h : p.Is i .bool (.binary op j k)) (x : Operation p j .bool) (y : Operation p k .bool) :
      Operation p i .bool
  | arith {i j k : ExprId} {ty σ τ : Ty} (op : BinaryOp) (hop : op.isEquality = false)
      (hσ : σ ≠ .bool) (hτ : τ ≠ .bool) (h : p.Is i ty (.binary op j k)) (x : Operation p j σ)
      (y : Operation p k τ) : Operation p i ty
  | mux {i c j k : ExprId} {ty : Ty} (h : p.Is i ty (.mux c j k)) (b : Operation p c .bool)
      (x : Operation p j ty) (y : Operation p k ty) : Operation p i ty
  | slice {i j : ExprId} {ty : Ty} (σ : Ty) (hi lo : UInt32) (hσ : σ ≠ .bool)
      (h : p.Is i ty (.slice j hi lo)) (x : Operation p j σ) : Operation p i ty
  | concat {i j k : ExprId} {ty : Ty} (σ τ : Ty) (hσ : σ ≠ .bool) (hτ : τ ≠ .bool)
      (h : p.Is i ty (.concat j k)) (x : Operation p j σ) (y : Operation p k τ) : Operation p i ty
  | cast {i j : ExprId} {ty : Ty} (σ : Ty) (h : p.Is i ty (.cast ty j)) (x : Operation p j σ) :
      Operation p i ty

namespace Operation

variable {p : Program}

/-- What is lowered without a look at the widths has no buffer. -/
def Guarded : {i : ExprId} → {ty : Ty} → p.Operation i ty → Prop
  | _, _, .place .. | _, _, .field .. | _, _, .constant .. | _, _, .number .. | _, _, .bool .. =>
    True
  | _, ty, .parserField .. => ty.kind = .scalar
  | _, _, .not _ x | _, _, .unary _ _ _ _ x => x.Guarded
  | _, _, .equality _ _ _ x y | _, _, .logic _ _ _ x y | _, _, .arith _ _ _ _ _ x y =>
    x.Guarded ∧ y.Guarded
  | _, _, .mux _ b x y => b.Guarded ∧ x.Guarded ∧ y.Guarded
  | _, ty, .slice σ _ _ _ _ x => (σ.kind = .scalar ∧ ty.kind = .scalar) ∧ x.Guarded
  | _, ty, .concat σ τ _ _ _ x y =>
    (σ.kind = .scalar ∧ τ.kind = .scalar ∧ ty.kind = .scalar) ∧ x.Guarded ∧ y.Guarded
  | _, ty, .cast σ _ x => σ.KeepsKind ty ∧ x.Guarded

/-- What is read from outside, and its kind. -/
def leaves (block : Option BlockId) : {i : ExprId} → {ty : Ty} → p.Operation i ty →
    List (Term × Kind)
  | _, ty, .place c => [(c.term block, ty.kind)]
  | _, ty, .field f => match ty.kind with
    | .scalar => [((Place.packetField f.place.headerId f.place.fieldId).term, .scalar)]
    | .buffer => []
  | _, _, .parserField base m x _ _ _ _ _ => [((m.parserPlace p x base).term, .scalar)]
  | _, _, .constant .. | _, _, .number .. | _, _, .bool .. => []
  | _, _, .not _ x | _, _, .unary _ _ _ _ x | _, _, .slice _ _ _ _ _ x
  | _, _, .cast _ _ x => x.leaves block
  | _, _, .equality _ _ _ x y | _, _, .logic _ _ _ x y | _, _, .arith _ _ _ _ _ x y
  | _, _, .concat _ _ _ _ _ x y => x.leaves block ++ y.leaves block
  | _, _, .mux _ b x y => b.leaves block ++ (x.leaves block ++ y.leaves block)

end Operation

end Program

/-- The leaves that are read from outside, and the buffers that are declared. -/
def Knows (leaves : List (Term × Kind)) (buffers : List String) (e : Term) (k : Kind) : Prop :=
  (e, k) ∈ leaves ∨ ∃ x ∈ buffers, e = .name x ∧ k = .buffer

/-! ### Code in front -/

namespace Lower

/-- The code in front as it is written. -/
abbrev written : Ledger String where
  text := id
  Kept s pre := s.emission = ⟨⟨pre, []⟩, []⟩ ∧ s.memory.names.Sound
  emission h := by rw [List.map_id]; exact h.1
  note h _ := h

namespace Lays

variable {env : Env} {loud : Bool}

theorem hoist (code : String) :
    Lays written env loud (Lower.hoist code) fun _ pre => code ∈ pre := by
  rintro s pre ⟨hpre, hs⟩
  by_cases hmem : code ∈ pre
  · refine ⟨(), s.prepend code, pre, [], rfl, ⟨?_, hs⟩, fun _ h => h, by simp, fun _ => rfl,
      fun _ _ hsub => hsub hmem⟩
    rw [State.prepend, Emission.prepend, hpre, if_pos (List.contains_iff_mem.2 hmem)]
  · refine ⟨(), s.prepend code, pre ++ [code], [], rfl, ⟨?_, hs⟩, List.subset_append_left ..,
      by simp, fun _ => rfl, fun _ _ hsub => hsub (by simp)⟩
    rw [State.prepend, Emission.prepend, hpre, if_neg fun h => hmem (List.contains_iff_mem.1 h)]

theorem freshName (hint : String) : Lays written env loud (Lower.freshName hint) fun x _ =>
    ∃ n, x = NameSupply.numbered hint n := fun _ pre ⟨hpre, hs⟩ =>
  ⟨_, _, pre, [], rfl, ⟨hpre, hs.fresh hint⟩, fun _ h => h, by simp, fun _ => rfl,
    fun _ _ _ => ⟨_, rfl⟩⟩

theorem nameOf (hint : String) (id : ExprId) : Lays written env loud (Lower.nameOf hint id)
    fun x _ => NameSupply.Derived hint id.text x := fun s pre ⟨hpre, hs⟩ =>
  ⟨_, _, pre, [], rfl, ⟨hpre, hs.named hint id.text⟩, fun _ h => h, by simp, fun _ => rfl,
    fun _ _ _ => (hs.named hint id.text).derived _ _ _ (s.memory.names.lookup_named hint id.text)⟩

end Lays

end Lower

/-! ### Texts -/

/-- The text spells a term of the kind wherever a term can stand. -/
def Kinded (leaf : Term → Kind → Prop) (k : Kind) (text : String) : Prop :=
  ∃ e, Operand text e ∧ e.HasKind leaf k

/-- A comparison with zero, which is written without parentheses. -/
def Comparison (leaf : Term → Kind → Prop) (text : String) : Prop :=
  ∃ (op : BinaryOp) (call : String), op.isEquality = true ∧
    text = "0" ++ (" " ++ op.symbol ++ " ") ++ call ∧ Kinded leaf .scalar call

/-- The text of an expression of the type. -/
def Rendered (leaf : Term → Kind → Prop) (ty : Ty) (text : String) : Prop :=
  Kinded leaf ty.kind text ∨ ty = .bool ∧ Comparison leaf text

section Texts

variable {leaf : Term → Kind → Prop} {k : Kind} {ty : Ty} {x l r sym : String}

namespace Kinded

theorem of_numeral {n : Nat} (h : Numeral x n) : Kinded leaf .scalar x := ⟨_, h.operand, .num n⟩

theorem paren (h : Kinded leaf k x) : Kinded leaf k ("(" ++ x ++ ")") := by
  obtain ⟨e, he, hk⟩ := h
  exact ⟨e, he.paren, hk⟩

theorem unary {op : UnOp} (hsym : Symbol sym [.one '(', op.token])
    (hfirst : starts isEdge sym = true) (h : Kinded leaf .scalar x) :
    Kinded leaf .scalar (sym ++ x ++ ")") := by
  obtain ⟨e, he, hk⟩ := h
  exact ⟨_, he.unary hsym hfirst, .unary op hk⟩

theorem binary {op : Op} (hsym : Symbol sym [op.token]) (hl : Kinded leaf .scalar l)
    (hr : Kinded leaf .scalar r) : Kinded leaf .scalar ("(" ++ l ++ sym ++ r ++ ")") := by
  obtain ⟨a, ha, hka⟩ := hl
  obtain ⟨b, hb, hkb⟩ := hr
  exact ⟨_, ha.binary hsym hb, .binary op hka hkb⟩

theorem masked (w : Nat) (h : Kinded leaf .scalar x) :
    Kinded leaf .scalar (Lower.masked (Literal.mask w ++ "&") x) := by
  obtain ⟨e, he, hk⟩ := h
  exact ⟨_, operand_masked w he, .binary _ (.num _) hk⟩

/-- A cast to a scalar. -/
theorem cast {w : Nat} (hw : w ≤ 32) (signed : Bool) {close : String}
    (hclose : close = ")" ∨ close = ") ") (h : Kinded leaf .scalar x) :
    Kinded leaf .scalar ("(" ++ Ty.bitsText .parameter w signed ++ close ++ x) := by
  obtain ⟨n, -, -, hty⟩ := bitsText_scalar hw signed
  obtain ⟨e, he, hk⟩ := h
  exact ⟨_, operand_cast hty hclose he, .cast _ hk⟩

end Kinded

namespace Comparison

theorem clause (h : Comparison leaf x) : ∃ e, Clause 6 x e ∧ e.HasKind leaf .scalar := by
  obtain ⟨op, call, hop, rfl, e, he, hk⟩ := h
  exact ⟨_, clause_zero hop he, .binary _ (.num 0) hk⟩

/-- Under a unary operator only the zero is taken as its operand. -/
theorem unary {op : UnOp} (hsym : Symbol sym [.one '(', op.token])
    (hfirst : starts isEdge sym = true) (h : Comparison leaf x) :
    Kinded leaf .scalar (sym ++ x ++ ")") := by
  obtain ⟨cmp, call, -, rfl, e, he, hk⟩ := h
  have hzero : Operand "0" (.num 0) := operand_decimal 0
  have hcmp := symbol_spaced cmp
  refine ⟨_, ⟨⟨?_, ends_append (by decide)⟩, ?_⟩,
    .binary cmp.target (.unary op (.num 0)) hk⟩
  · exact starts_append (starts_append hfirst)
  · have htext : sym ++ ("0" ++ (" " ++ cmp.symbol ++ " ") ++ call) ++ ")" =
        sym ++ ("0" ++ ((" " ++ cmp.symbol ++ " ") ++ (call ++ ")"))) := by
      simp only [String.append_assoc]
    have hspells := Spells.binary cmp.target
      ((Spells.unary op hzero.spells).mono (cmp.target.prec_le.2.trans (by decide)))
      (he.spells.mono (Nat.succ_le_succ cmp.target.prec_le.2))
    rw [htext, hzero.lex_between hsym.last (starts_append hcmp.first),
      he.lex_between hcmp.last (by decide), hsym.lex_eq, hcmp.lex_eq, lex_close]
    simpa using Spells.primary (.paren (hspells.mono (Nat.zero_le _)))

/-- On the right of a comparison only the zero is compared. -/
theorem right {op : BinaryOp} (hop : op.isEquality = true) {e : Term} (hl : Clause 6 l e)
    (hk : e.HasKind leaf .scalar) (h : Comparison leaf x) :
    Kinded leaf .scalar ("(" ++ appliedText l op x ++ ")") := by
  obtain ⟨cmp, call, hcmp, rfl, e', he', hk'⟩ := h
  have hzero : Operand "0" (.num 0) := operand_decimal 0
  have hleft := Clause.apply op.symbol_target (hl.mono (prec_target hop).le)
    (hzero.clause (Nat.succ_le_succ op.target.prec_le.2))
  have hboth := Clause.apply (symbol_spaced cmp)
    (hleft.mono (by rw [prec_target hop, prec_target hcmp]))
    (he'.clause (Nat.succ_le_succ cmp.target.prec_le.2))
  have htext : appliedText l op ("0" ++ (" " ++ cmp.symbol ++ " ") ++ call) =
      l ++ op.symbol ++ "0" ++ (" " ++ cmp.symbol ++ " ") ++ call := by
    simp only [appliedText, String.append_assoc]
  rw [htext]
  exact ⟨_, hboth.paren, .binary _ (.binary _ hk (.num 0)) hk'⟩

end Comparison

namespace Rendered

theorem clause (h : Rendered leaf ty x) : ∃ e, Clause 6 x e ∧ e.HasKind leaf ty.kind := by
  rcases h with ⟨e, he, hk⟩ | ⟨rfl, h⟩
  · exact ⟨e, he.clause (by decide), hk⟩
  · exact h.clause

theorem kinded (h : Rendered leaf ty x) (hty : ty ≠ .bool) : Kinded leaf ty.kind x :=
  h.resolve_right fun hbool => hty hbool.1

theorem scalar (h : Rendered leaf ty x) (hbool : ty ≠ .bool) (hty : ty.kind = .scalar) :
    Kinded leaf .scalar x := hty ▸ h.kinded hbool

theorem of_scalar (hty : ty.kind = .scalar) (h : Kinded leaf .scalar x) : Rendered leaf ty x :=
  .inl (by rwa [hty])

theorem not (h : Rendered leaf .bool x) : Kinded leaf .scalar ("(!" ++ x ++ ")") := by
  have hnot : Symbol "(!" [.one '(', UnOp.not.token] := by decide
  rcases h with h | ⟨-, h⟩
  · exact h.unary hnot (by decide)
  · exact h.unary hnot (by decide)

theorem equality {op : BinaryOp} (hop : op.isEquality = true) (hty : ty.kind = .scalar)
    (hl : Rendered leaf ty l) (hr : Rendered leaf ty r) :
    Kinded leaf .scalar ("(" ++ appliedText l op r ++ ")") := by
  obtain ⟨a, ha, hka⟩ := hl.clause
  rw [hty] at hka
  rcases hr with ⟨b, hb, hkb⟩ | ⟨-, hr⟩
  · rw [hty] at hkb
    have hclause := Clause.apply op.symbol_target (ha.mono (prec_target hop).le)
      (hb.clause (Nat.succ_le_succ op.target.prec_le.2))
    exact ⟨_, hclause.paren, .binary _ hka hkb⟩
  · exact hr.right hop ha hka

theorem logic {op : BinaryOp} (hop : op = .land ∨ op = .lor) (hl : Rendered leaf .bool l)
    (hr : Rendered leaf .bool r) : Kinded leaf .scalar ("(" ++ appliedText l op r ++ ")") := by
  have hprec : op.target.prec + 1 ≤ 6 := by rcases hop with rfl | rfl <;> decide
  obtain ⟨a, ha, hka⟩ := hl.clause
  obtain ⟨b, hb, hkb⟩ := hr.clause
  have hclause := Clause.apply op.symbol_target (ha.mono (Nat.le_of_succ_le hprec))
    (hb.mono hprec)
  exact ⟨_, hclause.paren, .binary _ hka hkb⟩

theorem cond {c t f query colon : String} (hquery : Symbol query [.one '?'])
    (hcolon : Symbol colon [.one ':']) (hc : Rendered leaf .bool c) (ht : Rendered leaf ty t)
    (hf : Rendered leaf ty f) :
    Kinded leaf ty.kind ("(" ++ c ++ query ++ t ++ colon ++ f ++ ")") := by
  obtain ⟨ec, hec, hkc⟩ := hc.clause
  obtain ⟨et, het, hkt⟩ := ht.clause
  obtain ⟨ef, hef, hkf⟩ := hf.clause
  exact ⟨_, Clause.cond hquery hcolon (hec.mono (by decide)) (het.mono (Nat.zero_le _))
    (hef.mono (Nat.zero_le _)), .cond hkc hkt hkf⟩

end Rendered

end Texts

/-! ### Operators -/

theorem kind_eq_scalar_iff {ty : Ty} : ty.kind = .scalar ↔ ty.width.getD 0 ≤ 32 := by
  unfold Ty.kind
  split <;> simp <;> omega

theorem kind_eq_buffer_iff {ty : Ty} : ty.kind = .buffer ↔ 32 < ty.width.getD 0 := by
  unfold Ty.kind
  split <;> simp <;> omega

theorem bufferWidth?_eq_none_iff {ty : Ty} : bufferWidth? ty = none ↔ ty.kind = .scalar := by
  rw [kind_eq_scalar_iff, bufferWidth?]
  cases ty.width <;> simp

section Operators

variable {γ : Type} {L : Ledger γ} {env : Env} {ty : Ty} {x l r : String}

theorem lays_unsupported {category : Category} {message : String}
    {Q : String → List γ → Prop} :
    Lays L env true (unsupported category message) Q := .report

theorem lays_typeMask (ty : Ty) :
    Lays L env true (typeMask ty) fun text _ => ∃ w, text = Literal.mask w ++ "&" := by
  unfold typeMask
  split
  · exact .pure fun _ => ⟨_, rfl⟩
  · exact .report

/-- What is masked, or else reported. -/
theorem lays_masked (ty : Ty) (x : String) :
    Lays L env true (do return masked (← typeMask ty) x) fun text _ =>
      ∀ leaf, Kinded leaf .scalar x → Kinded leaf .scalar text := by
  refine .bind (lays_typeMask ty) fun mask => .pure ?_
  rintro _ ⟨w, rfl⟩ leaf hx
  exact hx.masked w

theorem lays_unaryText {op : UnaryOp} (hop : op ≠ .lnot) :
    Lays L env true (unaryText ty op x) fun text _ =>
      ∀ leaf, Kinded leaf .scalar x → Kinded leaf .scalar text := by
  cases op with
  | lnot => exact absurd rfl hop
  | neg =>
    have hminus : Symbol "-" [Op.sub.token] := by decide
    have hneg : Symbol "(-" [.one '(', UnOp.neg.token] := by decide
    unfold unaryText
    dsimp only
    split
    · refine (lays_masked _ _).mono ?_
      intro text _ htext leaf hx
      exact htext leaf (.binary hminus (.of_numeral (numeral_decimal _)) hx)
    · refine .pure ?_
      intro _ leaf hx
      exact hx.unary hneg (by decide)
  | cmpl =>
    have hcompl : Symbol "(~" [.one '(', UnOp.compl.token] := by decide
    refine (lays_masked _ _).mono ?_
    intro text _ htext leaf hx
    exact htext leaf (hx.unary hcompl (by decide))

section Binary

variable {leaf : Term → Kind → Prop}

theorem kinded_applied (op : BinaryOp) (hl : Kinded leaf .scalar l) (hr : Kinded leaf .scalar r) :
    Kinded leaf .scalar ("(" ++ appliedText l op r ++ ")") := by
  obtain ⟨a, ha, hka⟩ := hl
  obtain ⟨b, hb, hkb⟩ := hr
  exact ⟨_, operand_applied op ha hb, .binary _ hka hkb⟩

theorem kinded_sub (w : Nat) (hl : Kinded leaf .scalar l) (hr : Kinded leaf .scalar r) :
    Kinded leaf .scalar ("(" ++ l ++ "+(" ++ power w ++ "-" ++ r ++ "))") := by
  obtain ⟨a, ha, hka⟩ := hl
  obtain ⟨b, hb, hkb⟩ := hr
  exact ⟨_, operand_sub w ha hb, .binary _ hka (.binary _ (.num _) hkb)⟩

/-- A shift of a signed number, which is zero if the amount is too large. -/
theorem kinded_shr (w : Nat) (hl : Kinded leaf .scalar l) (hr : Kinded leaf .scalar r) :
    Kinded leaf .scalar
      ("((" ++ r ++ ">" ++ toString w ++ ") ? 0 : (" ++ l ++ " >> " ++ r ++ "))") := by
  have hgt : Symbol ">" [Op.gt.token] := by decide
  have hshr : Symbol " >> " [Op.shr.token] := by decide
  have hquery : Symbol " ? " [.one '?'] := by decide
  have hcolon : Symbol " : " [.one ':'] := by decide
  obtain ⟨a, ha, hka⟩ := hl
  obtain ⟨b, hb, hkb⟩ := hr
  have hzero : Operand "0" (.num 0) := operand_decimal 0
  have hcond := (hb.binary hgt (operand_nat w)).cond hquery hcolon hzero (ha.binary hshr hb)
  have htext : "((" ++ r ++ ">" ++ toString w ++ ") ? 0 : (" ++ l ++ " >> " ++ r ++ "))" =
      "(" ++ ("(" ++ r ++ ">" ++ toString w ++ ")") ++ " ? " ++ "0" ++ " : " ++
        ("(" ++ l ++ " >> " ++ r ++ ")") ++ ")" := by simp [← String.toList_inj]
  rw [htext]
  exact ⟨_, hcond, .cond (.binary _ hkb (.num w)) (.num 0) (.binary _ hka hkb)⟩

/-- A cast in parentheses. -/
theorem kinded_cast {w : Nat} (hw : w ≤ 32) (signed : Bool) {close : String}
    (hclose : close = ")" ∨ close = ") ") (hx : Kinded leaf .scalar x) :
    Kinded leaf .scalar ("((" ++ Ty.bitsText .parameter w signed ++ close ++ x ++ ")") := by
  have htext : ∀ type, "(" ++ ("(" ++ type ++ close ++ x) ++ ")" =
      "((" ++ type ++ close ++ x ++ ")" := by
    intro type
    simp [← String.toList_inj]
  rw [← htext]
  exact (hx.cast hw signed hclose).paren

theorem lays_binaryText (hty : ty.kind = .scalar) (op : BinaryOp) :
    Lays L env true (binaryText ty op l r) fun text _ => ∀ leaf, Kinded leaf .scalar l →
      Kinded leaf .scalar r → Kinded leaf .scalar text := by
  unfold binaryText
  split
  · exact .pure fun _ leaf hl hr => kinded_applied op hl hr
  split
  · refine (lays_masked _ _).mono ?_
    intro text _ htext leaf hl hr
    exact htext leaf (kinded_sub _ hl hr)
  · refine (lays_masked _ _).mono ?_
    intro text _ htext leaf hl hr
    exact htext leaf (kinded_sub _ hl hr)
  · exact .pure fun _ leaf hl hr => kinded_shr _ hl hr
  · exact .pure fun _ leaf hl hr => kinded_applied op hl hr
  · refine (lays_masked _ _).mono ?_
    intro text _ htext leaf hl hr
    exact htext leaf (kinded_applied op hl hr)
  · split
    · refine .known (Gives.typeText _ _ env rfl rfl) (.pure ?_)
      intro _ leaf hl hr
      have hcast := kinded_cast (kind_eq_scalar_iff.1 hty) true (.inr rfl)
        (kinded_applied op hl hr)
      have htext : ∀ type, "((" ++ type ++ ") " ++ ("(" ++ appliedText l op r ++ ")") ++ ")" =
          "((" ++ type ++ ") (" ++ appliedText l op r ++ "))" := by
        intro type
        simp [← String.toList_inj]
      rwa [htext] at hcast
    · exact lays_unsupported
  · exact lays_unsupported

end Binary

/-- A truth value as a number. -/
theorem kinded_ofBool {leaf : Term → Kind → Prop} (hx : Rendered leaf .bool x) :
    Kinded leaf .scalar ("(" ++ x ++ "? 1 : 0)") := by
  have hquery : Symbol "? " [.one '?'] := by decide
  have hcolon : Symbol " : " [.one ':'] := by decide
  have hone : Rendered leaf .bool "1" := .inl (.of_numeral (numeral_decimal 1))
  have hzero : Rendered leaf .bool "0" := .inl (.of_numeral (numeral_decimal 0))
  have htext : "(" ++ x ++ "? 1 : 0)" = "(" ++ x ++ "? " ++ "1" ++ " : " ++ "0" ++ ")" := by
    simp [← String.toList_inj]
  rw [htext]
  exact hx.cond hquery hcolon hone hzero

/-- A cast to a narrower type masks its operand, which must not be a buffer. -/
theorem lays_narrowed {src : Ty} (hsrc : src.kind = .scalar) (hbool : src ≠ .bool)
    (hty : ty.kind = .scalar) :
    Lays L env true (do return masked (← typeMask ty) x) fun text _ =>
      ∀ leaf, Rendered leaf src x → Rendered leaf ty text := by
  refine (lays_masked ty x).mono ?_
  intro text _ htext leaf hx
  exact .of_scalar hty (htext leaf (hx.scalar hbool hsrc))

/-- A cast to a type of the target. -/
theorem lays_converted {src : Ty} {w : UInt32} {close : String} (hsrc : src.kind = .scalar)
    (hbool : src ≠ .bool) (hty : (Ty.bits w true).kind = .scalar)
    (hclose : close = ")" ∨ close = ") ") :
    Lays L env true (do
      let text ← typeText (.bits w true)
      return "((" ++ text ++ close ++ x ++ ")") fun text _ =>
      ∀ leaf, Rendered leaf src x → Rendered leaf (.bits w true) text := by
  refine .known (Gives.typeText _ _ env rfl rfl) (.pure fun _ leaf hx => ?_)
  exact .of_scalar hty
    (kinded_cast (kind_eq_scalar_iff.1 hty) true hclose (hx.scalar hbool hsrc))

theorem lays_castText {src dest : Ty} (h : src.KeepsKind dest) :
    Lays L env true (castText src dest x) fun text _ =>
      ∀ leaf, Rendered leaf src x → Rendered leaf dest text := by
  unfold castText
  split
  · refine .pure fun _ leaf hx => .inl ?_
    exact (hx.kinded nofun).paren
  · refine .pure fun _ leaf hx => .inl ?_
    exact kinded_ofBool hx
  · rename_i s d
    split
    · rename_i hlt
      rcases h with ⟨hs, hd⟩ | ⟨w, v, hs, hd, -, hle⟩
      · exact lays_narrowed hs nofun hd
      · -- a buffer does not shrink
        cases hs
        cases hd
        exact absurd (UInt32.lt_iff_toNat_lt.1 hlt) (Nat.not_lt.2 hle)
    · refine .pure fun _ leaf hx => .inl ?_
      have hsame : (Ty.bits s false).kind = (Ty.bits d false).kind := by
        rcases h with ⟨hs, hd⟩ | ⟨w, v, hs, hd, hw, hle⟩
        · rw [hs, hd]
        · cases hs
          cases hd
          have hs : (Ty.bits s false).kind = .buffer := kind_eq_buffer_iff.2 hw
          have hd : (Ty.bits d false).kind = .buffer := kind_eq_buffer_iff.2 (hw.trans_le hle)
          rw [hs, hd]
      rw [← hsame]
      exact hx.kinded nofun
  · obtain ⟨hs, hd⟩ | ⟨_, _, hs, -⟩ := h
    · exact lays_converted hs nofun hd (.inr rfl)
    · cases hs
  · obtain ⟨hs, hd⟩ | ⟨_, _, hs, -⟩ := h
    · exact lays_narrowed hs nofun hd
    · cases hs
  · obtain ⟨hs, hd⟩ | ⟨_, _, -, hd, -⟩ := h
    · split
      · exact lays_converted hs nofun hd (.inl rfl)
      · exact lays_unsupported
    · cases hd
  · exact lays_unsupported

end Operators

/-! ### Leaves -/

section Leaves

variable {env : Env} {i : ExprId} {ty : Ty} {leaves : List (Term × Kind)}

/-- The text of an expression of the type, among the leaves and behind the code. -/
def RenderedIn (leaves : List (Term × Kind)) (ty : Ty) (text : String) (pre : List String) : Prop :=
  Rendered (Knows leaves (pre.filterMap arrayOf)) ty text

/-- The expression is lowered to a text of its kind, or an error is recorded. -/
def KeepsKinds (env : Env) (leaves : List (Term × Kind)) (i : ExprId) (ty : Ty) : Prop :=
  Lays written env true (Lower.expr i .value) (RenderedIn leaves ty)

theorem rendered_place {place : Place} (h : place.Plain) (hmem : (place.term, ty.kind) ∈ leaves)
    (pre : List String) : RenderedIn leaves ty place.text pre :=
  .inl ⟨_, Place.operand h, .leaf (.inl hmem)⟩

theorem rendered_buffer {x piece : String} {pre : List String} (hx : Identifier x)
    (hmem : piece ∈ pre) (hpiece : arrayOf piece = some x) (hty : ty.kind = .buffer) :
    RenderedIn leaves ty x pre :=
  .inl ⟨_, hx.label.operand, .leaf (.inr ⟨x, List.mem_filterMap.2 ⟨_, hmem, hpiece⟩, rfl, hty⟩)⟩

/-- A constant that fits a scalar, with the sign behind its type. -/
theorem kinded_constant {leaf : Term → Kind → Prop} {w : Nat} (hw : w ≤ 32) (signed : Bool)
    (base : Nat) (value : Int) :
    Kinded leaf .scalar
      ("(" ++ Ty.bitsText .parameter w signed ++ ")" ++ Literal.inBase base value) := by
  obtain ⟨n, -, -, htype⟩ := bitsText_scalar hw signed
  cases value with
  | ofNat v =>
    have hnum : Kinded leaf .scalar (Literal.inBase base v) := .of_numeral (numeral_inBase base v)
    exact hnum.cast hw signed (.inl rfl)
  | negSucc v =>
    have htext : Literal.inBase base (.negSucc v) = "-" ++ Literal.digits 10 (v + 1) := by
      simp [Literal.inBase, Literal.decimal]
    rw [htext]
    exact ⟨_, operand_cast_neg htype (operand_decimal _), .cast _ (.unary _ (.num _))⟩

theorem lays_fieldText (wf : env.program.WellFormed) (hn : env.program.PlainNames)
    (f : env.program.FieldAt i ty)
    (hmem : (Program.Operation.field f).leaves env.block ⊆ leaves) :
    KeepsKinds env leaves i ty := by
  have hlabels := f.labels hn
  cases hty : ty.kind with
  | scalar =>
    refine (Lays.gives (f.gives wf (kind_eq_scalar_iff.1 hty)) rfl rfl).mono ?_
    rintro _ hs rfl
    have hplain : (Place.packetField f.place.headerId f.place.fieldId).Plain := hlabels
    rw [packetValue_eq]
    refine rendered_place hplain (hmem ?_) hs
    rw [Program.Operation.leaves, hty]
    exact List.mem_singleton.2 rfl
  | buffer =>
    refine .inEnv (expr_field wf f (kind_eq_buffer_iff.1 hty)) (.bind (.freshName _) fun x =>
      .bind (.hoist _) fun _ => .pure ?_)
    rintro pre hmem ⟨n, rfl⟩
    have hname := (f.isStem_name hn).identifier n
    refine rendered_buffer hname hmem ?_ hty
    rw [arrayOf, items_field _ hname.label hlabels.1 hlabels.2]
    rfl

theorem lays_constantText (wf : env.program.WellFormed) {w : UInt32} {signed : Bool} {value : Int}
    {base : UInt32} (h : env.program.Is i (.bits w signed) (.constant value base)) :
    KeepsKinds env leaves i (.bits w signed) := by
  by_cases hw : 32 < w.toNat
  · refine .inEnv (expr_constant wf h hw) (.bind (.nameOf _ i) fun x =>
      .bind (.hoist _) fun _ => .pure fun pre hmem hx => ?_)
    have hx := identifier_of_derived (isStem_constant value _) hx
    refine rendered_buffer hx hmem ?_ (kind_eq_buffer_iff.2 hw)
    rw [arrayOf, constantContent, items_constant _ hx.label (plain_constantContent value w.toNat)]
    rfl
  · obtain ⟨id, he⟩ := h
    refine .expr wf he ?_
    show Lays _ _ _ (if 32 < w.toNat then _ else _) _
    rw [if_neg hw]
    refine .known (Gives.typeText _ _ env rfl rfl) (.pure fun hs => ?_)
    exact .of_scalar (kind_eq_scalar_iff.2 (Nat.not_lt.1 hw))
      (kinded_constant (Nat.not_lt.1 hw) signed base.toNat value)

end Leaves

/-! ### Nodes -/

section Nodes

variable {env : Env} {i j k : ExprId} {ty σ τ : Ty} {a b : Expr} {leaves : List (Term × Kind)}

variable (wf : env.program.WellFormed)

include wf

theorem lays_unaryNode {op : UnaryOp} (hop : op ≠ .lnot) (hty : ty ≠ .bool)
    (h : env.program.Is i ty (.unary op j)) (hx : KeepsKinds env leaves j ty) :
    KeepsKinds env leaves i ty := by
  obtain ⟨id, he⟩ := h
  refine .expr wf he ?_
  show Lays _ _ _ (unary Lower.expr ⟨id, ty, .unary op j⟩ op j .value) _
  unfold unary
  rw [if_neg hop]
  split
  · exact lays_unsupported
  · have hkind := bufferWidth?_eq_none_iff.1 ‹_›
    exact .bind hx fun x => (lays_unaryText hop).mono fun text hs htext hx =>
      .of_scalar hkind (htext _ (hx.scalar hty hkind))

/-- Buffers are compared by their bytes, and everything else by its value. -/
theorem lays_equality {op : BinaryOp} (hop : op.isEquality = true)
    (h : env.program.Is i .bool (.binary op j k)) (ha : env.At j a)
    (hb : env.At k b) (hσ : a.ty = σ) (hτ : b.ty = σ)
    (hx : KeepsKinds env leaves j σ) (hy : KeepsKinds env leaves k σ) :
    KeepsKinds env leaves i .bool := by
  obtain ⟨id, he⟩ := h
  refine .expr wf he (.known (look_of_ok ha) (.known (look_of_ok hb) ?_))
  rw [hσ, hτ, if_pos hop, Option.or_self]
  cases hwidth : bufferWidth? σ with
  | some width =>
    have hkind : σ.kind = .buffer := by
      cases hσ : σ.kind with
      | buffer => rfl
      | scalar => rw [bufferWidth?_eq_none_iff.2 hσ] at hwidth; cases hwidth
    refine .bind hx fun l => .bind hy fun r => .pure fun hs hr hl => ?_
    have hbool : σ ≠ .bool := by rintro rfl; cases hwidth
    obtain ⟨e, hl, hkl⟩ := hl.kinded hbool
    obtain ⟨e', hr, hkr⟩ := hr.kinded hbool
    rw [hkind] at hkl hkr
    exact .inr ⟨rfl, op, _, hop, compare_text .., _, operand_memcmp hl hr _, .memcmp hkl hkr _⟩
  | none =>
    have hkind := bufferWidth?_eq_none_iff.1 hwidth
    simp only [binaryText_plain (isWidthSensitive_of_isEquality hop)]
    exact .bind hx fun l => .bind hy fun r => .pure fun hs hr hl =>
      .inl (Rendered.equality hop hkind hl hr)

/-- Any other operator is reported if it meets a buffer. -/
theorem lays_arith {op : BinaryOp} (hop : op.isEquality = false)
    (h : env.program.Is i ty (.binary op j k)) (ha : env.At j a)
    (hb : env.At k b) (haty : a.ty = σ) (hbty : b.ty = τ) (hσ : σ ≠ .bool)
    (hτ : τ ≠ .bool) (hx : KeepsKinds env leaves j σ) (hy : KeepsKinds env leaves k τ) :
    KeepsKinds env leaves i ty := by
  obtain ⟨id, he⟩ := h
  refine .expr wf he (.known (look_of_ok ha) (.known (look_of_ok hb) ?_))
  rw [haty, hbty, if_neg (by rw [hop]; decide)]
  cases hwidth : ([σ, τ, ty].filterMap bufferWidth?).max? with
  | some width => exact lays_unsupported
  | none =>
    rw [List.max?_eq_none_iff, List.filterMap_eq_nil_iff] at hwidth
    have hscalar : ∀ ty' ∈ [σ, τ, ty], ty'.kind = .scalar := fun ty' hmem =>
      bufferWidth?_eq_none_iff.1 (hwidth ty' hmem)
    have hty : ty.kind = .scalar := hscalar ty (by simp)
    refine .bind hx fun l => .bind hy fun r => (lays_binaryText hty op).mono ?_
    intro text hs htext hr hl
    have hl := hl.scalar hσ (hscalar σ (by simp))
    have hr := hr.scalar hτ (hscalar τ (by simp))
    exact .of_scalar hty (htext _ hl hr)

/-- A slice of a scalar. -/
theorem lays_slice {hi lo : UInt32} (hbool : σ ≠ .bool) (h : env.program.Is i ty (.slice j hi lo))
    (hσ : σ.kind = .scalar) (hty : ty.kind = .scalar) (hx : KeepsKinds env leaves j σ) :
    KeepsKinds env leaves i ty := by
  have hshr : Symbol ">>" [Op.shr.token] := by decide
  obtain ⟨id, he⟩ := h
  refine .expr wf he (.bind hx fun x => (lays_masked ty s!"({x}>>{lo.toNat})").mono ?_)
  intro text hs htext hx
  have hx := hx.scalar hbool hσ
  exact .of_scalar hty (htext _ (hx.binary hshr (.of_numeral (numeral_decimal _))))

/-- Scalars that are put together to a scalar. -/
theorem lays_concat (hbool : σ ≠ .bool) (hbool' : τ ≠ .bool) (h : env.program.Is i ty (.concat j k))
    (hb : env.At k b) (hσ : σ.kind = .scalar) (hτ : τ.kind = .scalar)
    (hty : ty.kind = .scalar) (hx : KeepsKinds env leaves j σ) (hy : KeepsKinds env leaves k τ) :
    KeepsKinds env leaves i ty := by
  have hshl : Symbol "<<" [Op.shl.token] := by decide
  have hor : Symbol " | " [Op.bor.token] := by decide
  obtain ⟨id, he⟩ := h
  refine .expr wf he (.known (look_of_ok hb) (.bind hx fun l => .bind hy fun r => .pure ?_))
  intro hs hr hl
  have hl := hl.scalar hbool hσ
  have hr := hr.scalar hbool' hτ
  refine .of_scalar hty ?_
  show Kinded _ _ ("((" ++ l ++ "<<" ++ toString (b.ty.width.getD 0) ++ ") | " ++ r ++ ")")
  rw [concat_text]
  exact (hl.binary hshl (.of_numeral (numeral_decimal _))).binary hor hr

end Nodes

/-! ### Whole expressions -/

namespace Program.Operation

variable {p : Program} {i : ExprId} {ty : Ty}

theorem exists_expr (t : p.Operation i ty) : ∃ e, p.At i e ∧ e.ty = ty := by
  cases t with
  | parserField _ _ _ h | constant _ _ h | number _ _ h | bool _ h | not h
  | unary _ _ _ h | equality _ _ h | logic _ _ h | arith _ _ _ _ h | mux h | slice _ _ _ _ h
  | concat _ _ _ _ h | cast _ h => exact ⟨_, h.choose_spec, rfl⟩
  | place c => exact c.exists_expr
  | field f => exact ⟨_, f.isMember.choose_spec, rfl⟩

/-- The induction over expressions: each node keeps the kinds of its parts, or reports them. -/
theorem lays (env : Env) (wf : env.program.WellFormed) (hn : env.program.PlainNames)
    {leaves : List (Term × Kind)} (t : env.program.Operation i ty) (ht : t.Guarded)
    (hsub : t.leaves env.block ⊆ leaves) : KeepsKinds env leaves i ty := by
  induction t with
  | place c =>
    refine (Lays.gives (c.gives env.block wf) rfl rfl).mono ?_
    rintro _ pre rfl
    exact .inl ⟨_, (c.reference _ hn).operand, .leaf (.inl (hsub (List.mem_singleton.2 rfl)))⟩
  | field f => exact lays_fieldText wf hn f hsub
  | parserField base m x h hfield hheader hbase hty =>
    obtain ⟨hplain, hgives⟩ := parserPlace_gives wf hn h hfield hheader hbase hty
    refine (Lays.gives hgives rfl rfl).mono ?_
    rintro _ hs rfl
    refine rendered_place hplain (hsub ?_) hs
    rw [show Ty.kind _ = _ from ht]
    exact List.mem_singleton.2 rfl
  | constant value base h => exact lays_constantText wf h
  | number n base h =>
    obtain ⟨id, he⟩ := h
    exact .expr wf he (.pure fun hs => .inl (.of_numeral (numeral_decimal n)))
  | bool b h =>
    obtain ⟨id, he⟩ := h
    exact .expr wf he (.pure fun hs => .inl ⟨_, operand_bool b, .bool b⟩)
  | not h x ih =>
    obtain ⟨id, he⟩ := h
    exact .expr wf he (.bind (ih ht hsub) fun a => .pure fun hs ha => .inl ha.not)
  | unary op hop hty h x ih => exact lays_unaryNode wf hop hty h (ih ht hsub)
  | equality op hop h x y ihx ihy =>
    obtain ⟨hx, hy⟩ := List.append_subset.1 hsub
    obtain ⟨a, ha, haty⟩ := x.exists_expr
    obtain ⟨b, hb, hbty⟩ := y.exists_expr
    exact lays_equality wf hop h ha hb haty hbty (ihx ht.1 hx) (ihy ht.2 hy)
  | logic op hop h x y ihx ihy =>
    obtain ⟨id, he⟩ := h
    obtain ⟨hx, hy⟩ := List.append_subset.1 hsub
    obtain ⟨a, ha, haty⟩ := x.exists_expr
    obtain ⟨b, hb, hbty⟩ := y.exists_expr
    have hplain : op.isWidthSensitive = false := by rcases hop with rfl | rfl <;> rfl
    refine .expr wf he (.inEnv (binary_bool ha hb haty hbty hplain) ?_)
    exact .bind (ihx ht.1 hx) fun l => .bind (ihy ht.2 hy) fun r => .pure fun hs hr hl =>
      .inl (Rendered.logic hop hl hr)
  | arith op hop hσ hτ h x y ihx ihy =>
    obtain ⟨hx, hy⟩ := List.append_subset.1 hsub
    obtain ⟨a, ha, haty⟩ := x.exists_expr
    obtain ⟨b, hb, hbty⟩ := y.exists_expr
    exact lays_arith wf hop h ha hb haty hbty hσ hτ (ihx ht.1 hx) (ihy ht.2 hy)
  | mux h b x y ihb ihx ihy =>
    obtain ⟨id, he⟩ := h
    obtain ⟨hb, hxy⟩ := List.append_subset.1 hsub
    obtain ⟨hx, hy⟩ := List.append_subset.1 hxy
    have hquery : Symbol "?" [.one '?'] := by decide
    have hcolon : Symbol ":" [.one ':'] := by decide
    exact .expr wf he (.bind (ihb ht.1 hb) fun c => .bind (ihx ht.2.1 hx) fun t =>
      .bind (ihy ht.2.2 hy) fun f => .pure fun hs hf ht hc =>
        .inl (Rendered.cond hquery hcolon hc ht hf))
  | slice σ hi lo hσ h x ih => exact lays_slice wf hσ h ht.1.1 ht.1.2 (ih ht.2 hsub)
  | concat σ τ hσ hτ h x y ihx ihy =>
    obtain ⟨hx, hy⟩ := List.append_subset.1 hsub
    obtain ⟨b, hb, -⟩ := y.exists_expr
    exact lays_concat wf hσ hτ h hb ht.1.1 ht.1.2.1 ht.1.2.2 (ihx ht.2.1 hx) (ihy ht.2.2 hy)
  | cast σ h x ih =>
    obtain ⟨id, he⟩ := h
    obtain ⟨a, ha, haty⟩ := x.exists_expr
    refine .expr wf he (.known (look_of_ok ha) ?_)
    rw [haty]
    exact .bind (ih ht.2 hsub) fun x => (lays_castText ht.1).mono fun text hs htext hx =>
      htext _ hx

end Program.Operation

namespace Session

open Program

variable {p : Program} {s : Session} {i : ExprId} {ty : Ty}

/-- If no error is recorded, the text of an expression applies operators to scalars only, and is a
buffer exactly if its type is above 32 bits. Buffers are the paths of such types and the arrays that
are declared in front. -/
theorem wide_operands_apart (hv : p.validate = .ok ()) (hn : p.PlainNames) (hs : s.Reachable)
    (block : Option BlockId) (t : p.Operation i ty) (ht : t.Guarded) :
    ∃ f s' ds, s.lowerExpression p i block .value = (.ok f, s') ∧
      s'.diagnostics = s.diagnostics ++ ds ∧ (Report.hasErrors ds = false →
        ∃ e, parse (lex f.text.toList) = some e ∧
          e.HasKind (Knows (t.leaves block) (f.pre.filterMap arrayOf)) ty.kind) := by
  have wf := WellFormed.of_validate hv
  have hlays := Operation.lays (s.env p block) wf hn t ht fun _ h => h
  obtain ⟨text, state, pre, ds, hrun, -, hds, -, hrendered⟩ :=
    hlays.run_session rfl ⟨rfl, hs.sound⟩ rfl
  rw [List.map_id] at hrun
  refine ⟨_, _, ds, hrun, hds, fun hnone => ?_⟩
  obtain ⟨e, hclause, hkind⟩ := (hrendered hnone).clause
  exact ⟨e, hclause.spells.parse_eq, hkind⟩

/-- A choice between a field and a path of 48 bits, and a slice of the field. -/
def wideChoice : Program where
  exprs := #[.packet, .packetHeader, .packetField 2 (.bits 48 false) "g" 0,
    .free 3 (.bits 48 false) "x", .binary 4 .bool .neq 2 3, ⟨⟨5⟩, .bits 48 false, .mux ⟨4⟩ ⟨2⟩ ⟨3⟩⟩,
    ⟨⟨6⟩, .bits 8 false, .slice ⟨2⟩ 11 4⟩]
  typeDecls := #[⟨"t", .header [⟨"g", .bits 48 false⟩]⟩]
  headers := #[⟨"h", ⟨0⟩, false⟩]

namespace wideChoice

theorem plainNames : wideChoice.PlainNames := by
  constructor <;> simp [wideChoice, TypeDecl.fields] <;> decide

def field : wideChoice.Operation ⟨2⟩ (.bits 48 false) :=
  .field ⟨_, ⟨⟨0⟩, 0⟩, _, _, ⟨⟨2⟩, rfl⟩, rfl, rfl, rfl, rfl⟩

def path : wideChoice.Operation ⟨3⟩ (.bits 48 false) :=
  .place (.path ⟨"x", none, false⟩ ⟨⟨3⟩, rfl⟩)

def chosen : wideChoice.Operation ⟨5⟩ (.bits 48 false) :=
  .mux ⟨⟨5⟩, rfl⟩ (.equality .neq rfl ⟨⟨4⟩, rfl⟩ field path) field path

def sliced : wideChoice.Operation ⟨6⟩ (.bits 8 false) :=
  .slice (.bits 48 false) 11 4 nofun ⟨⟨6⟩, rfl⟩ field

end wideChoice

/-- The bytes of the field are compared with those of the path, and the choice between them is a
buffer. -/
theorem wideChoice_is_buffer : ∃ f s' e,
    (start .standard).lowerExpression wideChoice ⟨5⟩ none .value = (.ok f, s') ∧
    f.text = "(0 != memcmp(h_g_1, x, 6)?h_g_2:x)" ∧ parse (lex f.text.toList) = some e ∧
    e.HasKind (Knows [(.name "x", .buffer), (.name "x", .buffer)] ["h_g_1", "h_g_2"]) .buffer := by
  obtain ⟨f, s', ds, h, hds, hkind⟩ := wide_operands_apart rfl wideChoice.plainNames
    (.start .standard) none wideChoice.chosen ⟨⟨trivial, trivial⟩, trivial, trivial⟩
  obtain ⟨g, t', hg, hquiet, hpre, htext⟩ : ∃ g t',
      (start .standard).lowerExpression wideChoice ⟨5⟩ none .value = (.ok g, t') ∧
      t'.diagnostics = [] ∧
      g.pre = ["uint8_t h_g_1[6];\n" ++
          "EXTRACT_BYTEBUF_PACKET(pd, header_instance_h, field_t_g, h_g_1);",
        "uint8_t h_g_2[6];\n" ++
          "EXTRACT_BYTEBUF_PACKET(pd, header_instance_h, field_t_g, h_g_2);"] ∧
      g.text = "(0 != memcmp(h_g_1, x, 6)?h_g_2:x)" := ⟨_, _, rfl, rfl, rfl, rfl⟩
  cases h.symm.trans hg
  obtain rfl : ds = [] := hds.symm.trans hquiet
  obtain ⟨e, hparse, hkind⟩ := hkind rfl
  have harrays : f.pre.filterMap arrayOf = ["h_g_1", "h_g_2"] := by
    rw [hpre]
    decide +kernel
  exact ⟨f, s', e, h, htext, hparse, harrays ▸ hkind⟩

section Inversion

variable {buffers : List String}

theorem operands_of_binary {op : Op} {l r : Term} {k : Kind}
    (h : (Term.binary op l r).HasKind (Knows [] buffers) k) :
    l.HasKind (Knows [] buffers) .scalar ∧ r.HasKind (Knows [] buffers) .scalar := by
  cases h with
  | leaf h => simp [Knows] at h
  | binary _ hl hr => exact ⟨hl, hr⟩

theorem not_scalar_of_name {x : String} (hx : x ≠ "true" ∧ x ≠ "false") :
    ¬ (Term.name x).HasKind (Knows [] buffers) .scalar := by
  intro h
  generalize he : Term.name x = e at h
  cases h with
  | leaf h =>
    rcases h with h | ⟨_, _, _, h⟩
    · cases h
    · cases h
  | bool b =>
    injection he with hname
    cases b with
    | true => exact hx.1 hname
    | false => exact hx.2 hname
  | _ => cases he

end Inversion

/-- A slice shifts the address of a buffer, and nothing is reported. -/
theorem wideChoice_slice_shifts_buffer : ∃ f s' e,
    (start .standard).lowerExpression wideChoice ⟨6⟩ none .value = (.ok f, s') ∧
    s'.diagnostics = [] ∧ f.text = "(0xff&(h_g_1>>4))" ∧ parse (lex f.text.toList) = some e ∧
    ¬ e.HasKind (Knows (wideChoice.sliced.leaves none) (f.pre.filterMap arrayOf)) .scalar := by
  have hleaves : wideChoice.sliced.leaves none = [] := rfl
  refine ⟨_, _, .binary .band (.num 255) (.binary .shr (.name "h_g_1") (.num 4)), rfl, rfl, rfl,
    rfl, ?_⟩
  rw [hleaves]
  intro h
  exact not_scalar_of_name (by decide) (operands_of_binary (operands_of_binary h).2).1

end Session

end PacketC
