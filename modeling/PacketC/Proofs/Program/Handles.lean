import PacketC.Program.Basic

/-! The places of a program where a handle can stand. Each relation has one rule for each place, so
it can be read beside the data it is about; nothing here refers to the check of a program. -/

namespace PacketC

/-- The expression that a handle stands for. -/
abbrev Program.At (p : Program) (id : ExprId) (e : Expr) : Prop := p.expr id = .ok e

/-- Handles that are written alike are the same. -/
theorem Handle.text_injective {arena : Arena} {a b : Handle arena} (h : a.text = b.text) :
    a = b := by
  refine Handle.ext_index ?_
  have hdigits : (toString a.index).toList = (toString b.index).toList := by
    have hlist := congrArg String.toList h
    simp only [Handle.text, String.toList_append] at hlist
    exact List.append_cancel_left hlist
  have hvalue := congrArg (fun ds => Nat.ofDigitChars 10 ds 0) hdigits
  simpa [Nat.toString_eq_ofList_toDigits] using hvalue

/-- A handle that stands in a type, at any depth. -/
inductive Ty.Mentions : Ty → TypeId → Prop
  | name (id : TypeId) : Mentions (.name id) id
  | external (id : TypeId) : Mentions (.external id) id
  | struct (id : TypeId) : Mentions (.struct id) id
  | header (id : TypeId) : Mentions (.header id) id
  | enum (id : TypeId) : Mentions (.enum id) id
  | error (id : TypeId) : Mentions (.error id) id
  | base (id : TypeId) (args : List Ty) : Mentions (.specialized id args) id
  | arg {base id : TypeId} {args : List Ty} {ty : Ty} (h : ty ∈ args) (m : ty.Mentions id) :
      Mentions (.specialized base args) id
  | item {id : TypeId} {items : List Ty} {ty : Ty} (h : ty ∈ items) (m : ty.Mentions id) :
      Mentions (.tuple items) id

/-- An expression handle that stands in a node. -/
inductive Node.Mentions : Node → ExprId → Prop
  | base (m : Member) : Mentions (.member m) m.base
  | operand (op : UnaryOp) (e : ExprId) : Mentions (.unary op e) e
  | left (op : BinaryOp) (l r : ExprId) : Mentions (.binary op l r) l
  | right (op : BinaryOp) (l r : ExprId) : Mentions (.binary op l r) r
  | cond (c t f : ExprId) : Mentions (.mux c t f) c
  | ifTrue (c t f : ExprId) : Mentions (.mux c t f) t
  | ifFalse (c t f : ExprId) : Mentions (.mux c t f) f
  | sliced (e : ExprId) (hi lo : UInt32) : Mentions (.slice e hi lo) e
  | upper (l r : ExprId) : Mentions (.concat l r) l
  | lower (l r : ExprId) : Mentions (.concat l r) r
  | converted (dest : Ty) (e : ExprId) : Mentions (.cast dest e) e
  | item {items : List ExprId} {e : ExprId} (h : e ∈ items) : Mentions (.list items) e
  | component {cs : List Component} {c : Component} (h : c ∈ cs) : Mentions (.structInit cs) c.value
  | key {keys : List ExprId} {arms : List SelectArm} {e : ExprId} (h : e ∈ keys) :
      Mentions (.select keys arms) e
  | keyset {keys : List ExprId} {arms : List SelectArm} {a : SelectArm} (h : a ∈ arms) :
      Mentions (.select keys arms) a.keyset
  | maskValue (v m : ExprId) : Mentions (.mask v m) v
  | mask (v m : ExprId) : Mentions (.mask v m) m
  | low (l h : ExprId) : Mentions (.range l h) l
  | high (l h : ExprId) : Mentions (.range l h) h
  | method (c : Call) : Mentions (.call c) c.method
  | arg {c : Call} {e : ExprId} (h : e ∈ c.args) : Mentions (.call c) e

/-- A type that stands in a node, besides the type of the whole expression. -/
inductive Node.HoldsTy : Node → Ty → Prop
  | dest (ty : Ty) (e : ExprId) : HoldsTy (.cast ty e) ty
  | typeName (ty : Ty) : HoldsTy (.typeName ty) ty
  | typeArg {c : Call} {ty : Ty} (h : ty ∈ c.typeArgs) : HoldsTy (.call c) ty

inductive Signature.HoldsTy (s : Signature) : Ty → Prop
  | returned : s.HoldsTy s.returnType
  | param {q : Param} (h : q ∈ s.params) : s.HoldsTy q.ty

inductive DeclBody.HoldsTy : DeclBody → Ty → Prop
  | var (ty : Ty) (init : Option ExprId) : HoldsTy (.var ty init) ty
  | inst (ty : Ty) (args : List ExprId) : HoldsTy (.inst ty args) ty
  | param (ty : Ty) (d : Direction) : HoldsTy (.param ty d) ty
  | const (ty : Ty) (value : ExprId) : HoldsTy (.const ty value) ty
  | function {s : Signature} {ty : Ty} (h : s.HoldsTy ty) : HoldsTy (.function s) ty

/-- An expression handle that stands in a declaration. -/
inductive DeclBody.Mentions : DeclBody → ExprId → Prop
  | initializer (ty : Ty) (e : ExprId) : Mentions (.var ty (some e)) e
  | arg {ty : Ty} {args : List ExprId} {e : ExprId} (h : e ∈ args) : Mentions (.inst ty args) e
  | value (ty : Ty) (e : ExprId) : Mentions (.const ty e) e

/-- A type that stands in a field of a header or struct, or in the signature of a method. -/
inductive TypeBody.HoldsTy : TypeBody → Ty → Prop
  | headerField {fields : List Field} {f : Field} (h : f ∈ fields) : HoldsTy (.header fields) f.ty
  | structField {fields : List Field} {isMetadata : Bool} {f : Field} (h : f ∈ fields) :
      HoldsTy (.struct fields isMetadata) f.ty
  | method {params : List String} {methods : List Signature} {s : Signature} {ty : Ty}
      (h : s ∈ methods) (m : s.HoldsTy ty) : HoldsTy (.external params methods) ty

namespace Program

variable {p : Program} {child id target : ExprId}

/-- A type that stands anywhere in a program. -/
inductive HoldsTy (p : Program) : Ty → Prop
  | expr {e : Expr} (h : e ∈ p.exprs) : p.HoldsTy e.ty
  | node {e : Expr} {ty : Ty} (h : e ∈ p.exprs) (m : e.node.HoldsTy ty) : p.HoldsTy ty
  | decl {d : Decl} {ty : Ty} (h : d ∈ p.decls) (m : d.body.HoldsTy ty) : p.HoldsTy ty
  | typeDecl {t : TypeDecl} {ty : Ty} (h : t ∈ p.typeDecls) (m : t.body.HoldsTy ty) : p.HoldsTy ty

/-- The instance, its header type and the field in it are all there. -/
def Resolves (p : Program) (ref : FieldRef) : Prop :=
  ∃ h t f, p.headers[ref.header.index]? = some h ∧
    p.typeDecls[h.headerType.index]? = some t ∧ t.fields[ref.field.toNat]? = some f

/-- `child` stands in the expression `id`. -/
def Part (p : Program) (id child : ExprId) : Prop :=
  ∃ e, p.At id e ∧ e.node.Mentions child

/-- From one expression to another, through parts of parts. -/
inductive Reaches (p : Program) : ExprId → ExprId → Prop
  | refl (id : ExprId) : p.Reaches id id
  | part {id child target : ExprId} (h : p.Part id child) (r : p.Reaches child target) :
      p.Reaches id target

/-- The second expression stands somewhere inside the first one. -/
def Below (p : Program) (id target : ExprId) : Prop :=
  ∃ child, p.Part id child ∧ p.Reaches child target

theorem Part.below (h : p.Part id child) : p.Below id child :=
  ⟨child, h, .refl child⟩

theorem Below.part (h : p.Below id child) (hp : p.Part child target) : p.Below id target := by
  obtain ⟨first, hfirst, hreach⟩ := h
  refine ⟨first, hfirst, ?_⟩
  clear hfirst
  induction hreach with
  | refl => exact .part hp (.refl target)
  | part h _ ih => exact .part h (ih hp)

theorem Below.reaches (h : p.Below id target) : p.Reaches id target := by
  obtain ⟨child, hp, hr⟩ := h
  exact .part hp hr

theorem Reaches.trans (h : p.Reaches id child) (r : p.Reaches child target) :
    p.Reaches id target := by
  induction h with
  | refl => exact r
  | part hp _ ih => exact .part hp (ih r)

end Program

/-! ### Parts -/

/-- `children` leaves no expression handle of a node out, and adds none. -/
theorem Node.mem_children_iff {n : Node} {id : ExprId} : id ∈ n.children ↔ n.Mentions id := by
  constructor
  · intro h
    cases n <;> simp only [children, List.mem_cons, List.not_mem_nil, or_false, List.mem_append,
      List.mem_map] at h
    case member m => subst h; exact .base m
    case unary op e => subst h; exact .operand op _
    case binary op l r =>
      rcases h with rfl | rfl
      · exact .left ..
      · exact .right ..
    case mux c t f =>
      rcases h with rfl | rfl | rfl
      · exact .cond ..
      · exact .ifTrue ..
      · exact .ifFalse ..
    case slice e hi lo => subst h; exact .sliced ..
    case concat l r =>
      rcases h with rfl | rfl
      · exact .upper ..
      · exact .lower ..
    case cast dest e => subst h; exact .converted ..
    case list items => exact .item h
    case structInit cs => obtain ⟨c, hc, rfl⟩ := h; exact .component hc
    case select keys arms =>
      rcases h with h | ⟨a, ha, rfl⟩
      · exact .key h
      · exact .keyset ha
    case mask v m =>
      rcases h with rfl | rfl
      · exact .maskValue ..
      · exact .mask ..
    case range l u =>
      rcases h with rfl | rfl
      · exact .low ..
      · exact .high ..
    case call c =>
      rcases h with rfl | h
      · exact .method c
      · exact .arg h
  · intro h
    cases h <;> simp only [children, List.mem_cons, List.mem_append, List.mem_map, true_or, or_true]
    case item h => exact h
    case component c h => exact ⟨c, h, rfl⟩
    case key h => exact .inl h
    case keyset a h => exact .inr ⟨a, h, rfl⟩
    case arg h => exact .inr h

end PacketC
