import PacketC.Proofs.Code.Text
import PacketC.Session

/-! Unsigned arithmetic that fits scalars. A tree is an expression of a program, seen through the
handles, that is well-typed and made of bit strings of at most 32 bits and truth values. The value
of a tree is computed with bit vectors of the declared widths. -/

namespace PacketC

/-! ### Types and values -/

/-- The widths of bit strings that are scalars. -/
structure Width where
  bits : UInt32
  pos : 0 < bits.toNat
  le : bits.toNat ≤ 32

namespace Width

abbrev size (w : Width) : Nat := w.bits.toNat

def one : Width := ⟨1, by decide, by decide⟩

end Width

inductive Scalar where
  | bit (w : Width)
  | bool

namespace Scalar

def ty : Scalar → Ty
  | .bit w => .bits w.bits false
  | .bool => .bool

abbrev Value : Scalar → Type
  | .bit w => BitVec w.size
  | .bool => Bool

/-- A value as the number that stands for it in the target. -/
def number : (τ : Scalar) → τ.Value → Nat
  | .bit _, (x : BitVec _) => x.toNat
  | .bool, (b : Bool) => b.toNat

end Scalar

/-! ### Operators -/

inductive UnaryOp.Means : UnaryOp → (σ τ : Scalar) → (σ.Value → τ.Value) → Prop
  | neg (w : Width) : Means .neg (.bit w) (.bit w) fun (x : BitVec w.size) => -x
  | cmpl (w : Width) : Means .cmpl (.bit w) (.bit w) fun (x : BitVec w.size) => ~~~x
  | lnot : Means .lnot .bool .bool fun (x : Bool) => !x

inductive BinaryOp.Means : BinaryOp → (σ₁ σ₂ τ : Scalar) → (σ₁.Value → σ₂.Value → τ.Value) → Prop
  | add (w : Width) : Means .add (.bit w) (.bit w) (.bit w) fun (x y : BitVec w.size) => x + y
  | sub (w : Width) : Means .sub (.bit w) (.bit w) (.bit w) fun (x y : BitVec w.size) => x - y
  | mul (w : Width) : Means .mul (.bit w) (.bit w) (.bit w) fun (x y : BitVec w.size) => x * y
  | div (w : Width) : Means .div (.bit w) (.bit w) (.bit w) fun (x y : BitVec w.size) => x / y
  | mod (w : Width) : Means .mod (.bit w) (.bit w) (.bit w) fun (x y : BitVec w.size) => x % y
  | band (w : Width) : Means .band (.bit w) (.bit w) (.bit w) fun (x y : BitVec w.size) => x &&& y
  | bor (w : Width) : Means .bor (.bit w) (.bit w) (.bit w) fun (x y : BitVec w.size) => x ||| y
  | bxor (w : Width) : Means .bxor (.bit w) (.bit w) (.bit w) fun (x y : BitVec w.size) => x ^^^ y
  /-- The amount of a shift has a width of its own, and may exceed the other one. -/
  | shl (w v : Width) : Means .shl (.bit w) (.bit v) (.bit w)
      fun (x : BitVec w.size) (y : BitVec v.size) => x <<< y.toNat
  | shr (w v : Width) : Means .shr (.bit w) (.bit v) (.bit w)
      fun (x : BitVec w.size) (y : BitVec v.size) => x >>> y.toNat
  | grt (w : Width) : Means .grt (.bit w) (.bit w) .bool fun (x y : BitVec w.size) => decide (y < x)
  | geq (w : Width) : Means .geq (.bit w) (.bit w) .bool fun (x y : BitVec w.size) => decide (y ≤ x)
  | lss (w : Width) : Means .lss (.bit w) (.bit w) .bool fun (x y : BitVec w.size) => decide (x < y)
  | leq (w : Width) : Means .leq (.bit w) (.bit w) .bool fun (x y : BitVec w.size) => decide (x ≤ y)
  | equ (w : Width) : Means .equ (.bit w) (.bit w) .bool fun (x y : BitVec w.size) => decide (x = y)
  | neq (w : Width) : Means .neq (.bit w) (.bit w) .bool fun (x y : BitVec w.size) => decide (x ≠ y)
  | equBool : Means .equ .bool .bool .bool fun (x y : Bool) => decide (x = y)
  | neqBool : Means .neq .bool .bool .bool fun (x y : Bool) => decide (x ≠ y)
  | land : Means .land .bool .bool .bool fun (x y : Bool) => x && y
  | lor : Means .lor .bool .bool .bool fun (x y : Bool) => x || y

/-- The casts between scalars. -/
inductive Scalar.Converts : (σ τ : Scalar) → (σ.Value → τ.Value) → Prop
  | resize (w v : Width) : Converts (.bit w) (.bit v) fun (x : BitVec w.size) => x.setWidth v.size
  | toBool : Converts (.bit .one) .bool fun (x : BitVec 1) => decide (x = 1)
  | ofBool : Converts .bool (.bit .one) fun (b : Bool) => (BitVec.ofBool b : BitVec 1)

/-! ### Trees -/

namespace Program

/-- The names of the program that its scalars can show are free to use in the target. -/
structure PlainNames (p : Program) : Prop where
  paths : ∀ e ∈ p.exprs, ∀ x, e.node = .path x → Code.Identifier x.name
  members : ∀ e ∈ p.exprs, ∀ m, e.node = .member m → Code.Identifier m.member
  headers : ∀ h ∈ p.headers, Code.Identifier h.name
  types : ∀ t ∈ p.typeDecls, Code.Identifier t.name
  fields : ∀ t ∈ p.typeDecls, ∀ f ∈ t.fields, Code.Identifier f.name

/-- The expression has the given type and is the given node. -/
def Is (p : Program) (i : ExprId) (ty : Ty) (node : Node) : Prop :=
  ∃ id, p.expr i = .ok ⟨id, ty, node⟩

/-- What is read from somewhere: a path, a field of the packet or of metadata, or a field of a
header that the parser keeps. -/
inductive Leaf (p : Program) (i : ExprId) (τ : Scalar) : Prop
  | path (x : Path) (h : p.Is i τ.ty (.path x))
  | packetField (m : Member) (ref : FieldRef) (f : Field) (h : p.Is i τ.ty (.member m))
      (href : m.field = some ref) (hf : p.field ref = .ok f) (hty : f.ty = τ.ty)
  | parserField (m : Member) (x : Path) (ty : Ty) (h : p.Is i τ.ty (.member m))
      (hfield : m.field = none) (hheader : m.header = none) (hbase : p.Is m.base ty (.path x))
      (hty : Lower.isHeaderTy p ty = true)

inductive Tree (p : Program) : ExprId → Scalar → Type
  | leaf {i : ExprId} {τ : Scalar} (h : p.Leaf i τ) : Tree p i τ
  | constant {i : ExprId} {w : Width} (x : BitVec w.size) (base : UInt32)
      (h : p.Is i (.bits w.bits false) (.constant x.toNat base)) : Tree p i (.bit w)
  | bool {i : ExprId} (b : Bool) (h : p.Is i .bool (.bool b)) : Tree p i .bool
  | unary {i j : ExprId} {σ τ : Scalar} {f : σ.Value → τ.Value} (op : UnaryOp)
      (h : p.Is i τ.ty (.unary op j)) (hop : op.Means σ τ f) (x : Tree p j σ) : Tree p i τ
  | binary {i j k : ExprId} {σ₁ σ₂ τ : Scalar} {f : σ₁.Value → σ₂.Value → τ.Value} (op : BinaryOp)
      (h : p.Is i τ.ty (.binary op j k)) (hop : op.Means σ₁ σ₂ τ f) (x : Tree p j σ₁)
      (y : Tree p k σ₂) : Tree p i τ
  | mux {i c j k : ExprId} {τ : Scalar} (h : p.Is i τ.ty (.mux c j k)) (b : Tree p c .bool)
      (x : Tree p j τ) (y : Tree p k τ) : Tree p i τ
  | slice {i j : ExprId} {w v : Width} (hi lo : UInt32)
      (h : p.Is i (.bits v.bits false) (.slice j hi lo)) (hlo : lo.toNat ≤ hi.toNat)
      (hhi : hi.toNat < w.size) (hv : v.size = hi.toNat - lo.toNat + 1) (x : Tree p j (.bit w)) :
      Tree p i (.bit v)
  | concat {i j k : ExprId} {u v w : Width} (h : p.Is i (.bits w.bits false) (.concat j k))
      (hw : w.size = u.size + v.size) (x : Tree p j (.bit u)) (y : Tree p k (.bit v)) :
      Tree p i (.bit w)
  | cast {i j : ExprId} {σ τ : Scalar} {f : σ.Value → τ.Value} (h : p.Is i τ.ty (.cast τ.ty j))
      (hf : Scalar.Converts σ τ f) (x : Tree p j σ) : Tree p i τ

/-- What the leaves hold. -/
abbrev Assignment := ExprId → (τ : Scalar) → τ.Value

namespace Tree

variable {p : Program}

def value (ρ : Assignment) : {i : ExprId} → {τ : Scalar} → p.Tree i τ → τ.Value
  | i, τ, .leaf _ => ρ i τ
  | _, _, .constant x _ _ => x
  | _, _, .bool b _ => b
  | _, _, .unary (f := f) _ _ _ x => f (x.value ρ)
  | _, _, .binary (f := f) _ _ _ x y => f (x.value ρ) (y.value ρ)
  | _, _, .mux _ b x y => if b.value ρ then x.value ρ else y.value ρ
  | _, _, .slice (v := v) _ lo _ _ _ _ x => (x.value ρ).extractLsb' lo.toNat v.size
  | _, _, .concat _ hw x y => (x.value ρ ++ y.value ρ).cast hw.symm
  | _, _, .cast (f := f) _ _ x => f (x.value ρ)

def leaves : {i : ExprId} → {τ : Scalar} → p.Tree i τ → List (ExprId × Scalar)
  | i, τ, .leaf _ => [(i, τ)]
  | _, _, .constant .. | _, _, .bool .. => []
  | _, _, .unary _ _ _ x | _, _, .slice _ _ _ _ _ _ x | _, _, .cast _ _ x => x.leaves
  | _, _, .binary _ _ _ x y | _, _, .concat _ _ x y => x.leaves ++ y.leaves
  | _, _, .mux _ b x y => b.leaves ++ x.leaves ++ y.leaves

/-- No division in the tree is by zero. -/
def NoZeroDivisor (ρ : Assignment) : {i : ExprId} → {τ : Scalar} → p.Tree i τ → Prop
  | _, _, .leaf _ | _, _, .constant .. | _, _, .bool .. => True
  | _, _, .unary _ _ _ x | _, _, .slice _ _ _ _ _ _ x | _, _, .cast _ _ x => x.NoZeroDivisor ρ
  | _, _, .binary op _ _ x y => x.NoZeroDivisor ρ ∧ y.NoZeroDivisor ρ ∧
      (op = .div ∨ op = .mod → Scalar.number _ (y.value ρ) ≠ 0)
  | _, _, .concat _ _ x y => x.NoZeroDivisor ρ ∧ y.NoZeroDivisor ρ
  | _, _, .mux _ b x y => b.NoZeroDivisor ρ ∧ x.NoZeroDivisor ρ ∧ y.NoZeroDivisor ρ

end Tree

end Program

end PacketC
