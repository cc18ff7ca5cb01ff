import PacketC.Proofs.Lower.Reports

/-! What the target has no form for, and that each such thing is reported where it is met. The
predicates list the shapes of types and nodes that are not supported, with the severity of their
diagnostics. -/

namespace PacketC

namespace Ty

/-- Wider than any scalar of the target. -/
def IsWide (ty : Ty) : Prop := ∃ w, ty.width = some w ∧ 32 < w

/-- The casts that have a form in the target. -/
def castable : Ty → Ty → Bool
  | .bits 1 false, .bool => true
  | .bool, .bits 1 false => true
  | .bits _ false, .bits _ false => true
  | .bits _ true, .bits _ _ => true
  | .bits _ false, .bits width true => Lower.isScalarWidth width.toNat
  | _, _ => false

/-- Arithmetic whose result does not come out at the width of the type: on signed numbers without a
scalar of their own, and on what is no number at all. -/
inductive Lacks (ty : Ty) (op : BinaryOp) : Prop
  | signed {width : UInt32} (h : ty = .bits width true) (hop : op ≠ .shr)
      (hw : Lower.isScalarWidth width.toNat = false)
  | other (h : ty.isBits = false) (hi : ty ≠ .infInt)

end Ty

/-! ### Constructs -/

/-- A key of a transition for which no variable can be declared. -/
inductive Expr.UnsupportedKey (k : Expr) : Prop
  | shape (h : k.ty.isBits = false)
  | width {width : UInt32} {signed : Bool} (h : k.ty = .bits width signed) (hw : 32 < width.toNat)
      (h8 : width.toNat % 8 ≠ 0)
  | source {width : UInt32} {signed : Bool} (h : k.ty = .bits width signed)
      (hw : 32 < width.toNat) (hf : k.fieldRef? = none)

/-- A case of a transition that cannot be compared with a wide key, or may not be compared as it is
meant with a narrow one. -/
inductive Expr.UnsupportedCase (k c : Expr) : Severity → Prop
  | wide (hw : k.ty.IsWide) (hd : c.node ≠ .default)
      (h : c.isConstant = false ∨ k.ty.width.getD 0 % 8 ≠ 0) : UnsupportedCase k c .error
  | narrow (hw : ¬k.ty.IsWide) (hd : c.node ≠ .default) (h : c.isConstant = false)
      (hr : ∀ low high, c.node ≠ .range low high) (hm : ∀ value mask, c.node ≠ .mask value mask) :
      UnsupportedCase k c .warning

/-- The expressions that the target has no form for, with the severity of their diagnostic. The
memory is the one at the point where the expression is met: what a list or a transition needs is
written only once. -/
inductive Expr.Unsupported (s : TypeScope) (m : Memory) (e : Expr) : Severity → Prop
  | wideUnary {op : UnaryOp} {x : ExprId} (h : e.node = .unary op x) (hop : op ≠ .lnot)
      (hw : e.ty.IsWide) : e.Unsupported s m .error
  | complement {x : ExprId} (h : e.node = .unary .cmpl x) (ht : e.ty.isUnsignedBits = false) :
      e.Unsupported s m .error
  | slice {x : ExprId} {hi lo : UInt32} (h : e.node = .slice x hi lo)
      (ht : e.ty.isUnsignedBits = false) : e.Unsupported s m .error
  | wideBinary {op : BinaryOp} {l r : ExprId} {left right : Expr} (h : e.node = .binary op l r)
      (hl : s.program.expr l = .ok left) (hr : s.program.expr r = .ok right)
      (hop : op.isEquality = false) (hw : left.ty.IsWide ∨ right.ty.IsWide ∨ e.ty.IsWide) :
      e.Unsupported s m .error
  | arithmetic {op : BinaryOp} {l r : ExprId} (h : e.node = .binary op l r)
      (hop : op.isWidthSensitive = true) (ht : e.ty.Lacks op) : e.Unsupported s m .error
  | cast {dest : Ty} {x : ExprId} {src : Expr} (h : e.node = .cast dest x)
      (hx : s.program.expr x = .ok src) (hc : src.ty.castable dest = false) :
      e.Unsupported s m .error
  | mask {value mask : ExprId} (h : e.node = .mask value mask) : e.Unsupported s m .error
  | range {low high : ExprId} (h : e.node = .range low high) : e.Unsupported s m .error
  | typeName {ty : Ty} (h : e.node = .typeName ty) (ht : ¬ty.Supported s) :
      e.Unsupported s m .error
  | struct {components : List Component} (h : e.node = .structInit components)
      (ht : ¬e.ty.Supported s) : e.Unsupported s m .error
  | selectCase {keys parts : List ExprId} {arms : List SelectArm} {arm : SelectArm}
      {key component : ExprId} {k c : Expr} {severity : Severity} (h : e.node = .select keys arms)
      (ha : arm ∈ arms) (hparts : Lower.keysetParts s.program arm.keyset = .ok parts)
      (hq : (key, component) ∈ keys.zip parts) (hk : s.program.expr key = .ok k)
      (hc : s.program.expr component = .ok c) (hu : k.UnsupportedCase c severity) :
      e.Unsupported s m severity
  | selectKey {keys : List ExprId} {arms : List SelectArm} {key : ExprId} {k : Expr}
      (h : e.node = .select keys arms) (hfirst : m.isGenerated e.id = false) (hq : key ∈ keys)
      (hk : s.program.expr key = .ok k) (hu : k.UnsupportedKey) : e.Unsupported s m .error
  /-- An item of a list that is neither a field nor a constant is left out. -/
  | item {items : List ExprId} {i : ExprId} {x : Expr} (h : e.node = .list items)
      (hfirst : m.isGenerated e.id = false) (hi : i ∈ items) (hx : s.program.expr i = .ok x)
      (hf : x.fieldRef? = none) (hc : x.isConstant = false) : e.Unsupported s m .warning

/-- The declarations that the target has no form for. -/
inductive DeclBody.Unsupported (s : TypeScope) : DeclBody → Prop
  | var {ty : Ty} {init : Option ExprId} (hh : Lower.isHeaderTy s.program ty = false)
      (ht : ¬ty.Supported s) : Unsupported s (.var ty init)
  | inst {ty : Ty} {args : List ExprId} (ht : ¬ty.Supported s) : Unsupported s (.inst ty args)
  | param {ty : Ty} {d : Direction} (ht : ¬ty.Supported s) : Unsupported s (.param ty d)
  | const {ty : Ty} {value : ExprId} (ht : ¬ty.Supported s) : Unsupported s (.const ty value)
  | function (signature : Signature) : Unsupported s (.function signature)

namespace Lower

variable {env : Env} {e : Expr} {mode : Mode} {severity : Severity}
  {id key : ExprId} {keys : List ExprId} {arm : SelectArm} {arms : List SelectArm} {ty : Ty}
  {x : ExprId} {β : Type} {op : BinaryOp} {s : State} {k : Expr}

theorem unsupported_reports (category : Category) (message : String) :
    Reports env .error (unsupported category message) :=
  (Reports.report _ _ _).bind fun _ _ => .pure _

theorem binaryText_reports (l r : String) (hop : op.isWidthSensitive = true) (h : ty.Lacks op) :
    Reports env .error (binaryText ty op l r) := by
  unfold binaryText
  rw [hop, if_neg (by decide)]
  cases h with
  | signed h hshr hw =>
    subst h
    split
    all_goals simp_all
    exact unsupported_reports _ _
  | other h hi =>
    split
    all_goals first | (exact unsupported_reports _ _) | simp_all [Ty.isBits]

theorem castText_reports {src dest : Ty} (inner : String) (h : src.castable dest = false) :
    Reports env .error (castText src dest inner) := by
  unfold castText
  split
  all_goals simp_all only [Ty.castable, Bool.true_eq_false, Bool.false_eq_true, if_false]
  · exact unsupported_reports _ _
  · exact unsupported_reports _ _

end Lower

end PacketC
