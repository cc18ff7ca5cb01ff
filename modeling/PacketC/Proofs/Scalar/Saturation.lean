import PacketC.Proofs.External.Outcome
import PacketC.Proofs.Scalar.Nodes

/-! Saturating operators. They are written like the operators that wrap around, so their text has
the remainder of the sum or the difference, which is the saturated result exactly where that lies
in the range of the type. -/

namespace PacketC

open Code Lower

/-! ### Operators -/

inductive Saturating where
  | add | sub

namespace Saturating

def op : Saturating → BinaryOp
  | .add => .addSat
  | .sub => .subSat

/-- The result with no bounds. -/
def exact : Saturating → Int → Int → Int
  | .add, a, b => a + b
  | .sub, a, b => a - b

/-- The result that stops at the end of the range. -/
def clamp (w : Nat) : Saturating → Int → Int → Int
  | .add, a, b => min (a + b) (2 ^ w - 1)
  | .sub, a, b => max (a - b) 0

abbrev InRange (w : Nat) (o : Saturating) (a b : Int) : Prop :=
  0 ≤ o.exact a b ∧ o.exact a b < 2 ^ w

theorem exact_mod_eq_clamp_iff {w x y : Nat} (o : Saturating) (hx : x < 2 ^ w) (hy : y < 2 ^ w) :
    o.exact x y % 2 ^ w = o.clamp w x y ↔ o.InRange w x y := by
  have hx' : (x : Int) < 2 ^ w := by exact_mod_cast hx
  have hy' : (y : Int) < 2 ^ w := by exact_mod_cast hy
  -- out of range the remainder is off by one multiple, and never hits the end
  cases o with
  | add =>
    simp only [exact, clamp, InRange]
    by_cases h : (x : Int) + y < 2 ^ w
    · rw [Int.emod_eq_of_lt (by omega) h]
      omega
    · rw [← Int.sub_emod_right, Int.emod_eq_of_lt (by omega) (by omega)]
      omega
  | sub =>
    simp only [exact, clamp, InRange]
    by_cases h : (y : Int) ≤ x
    · rw [Int.emod_eq_of_lt (by omega) (by omega)]
      omega
    · rw [← Int.add_emod_right, Int.emod_eq_of_lt (by omega) (by omega)]
      omega

/-- The operator that wraps around. -/
def wrapping : Saturating → BinaryOp
  | .add => .add
  | .sub => .sub

theorem wrapping_means (o : Saturating) (w : Width) :
    ∃ f : BitVec w.size → BitVec w.size → BitVec w.size,
      o.wrapping.Means (.bit w) (.bit w) (.bit w) f ∧
      ∀ x y, ((f x y).toNat : Int) = o.exact x.toNat y.toNat % 2 ^ w.size := by
  cases o with
  | add =>
    refine ⟨_, .add w, fun x y => ?_⟩
    rw [BitVec.toNat_add]
    rfl
  | sub =>
    refine ⟨_, .sub w, fun x y => ?_⟩
    have hle := y.isLt.le
    have hsum : (2 ^ w.size - y.toNat + x.toNat : Int) = x.toNat - y.toNat + 2 ^ w.size := by omega
    rw [BitVec.toNat_sub]
    push_cast [hle]
    rw [hsum, Int.add_emod_right]
    rfl

end Saturating

namespace Lower

theorem binaryText_saturating (o : Saturating) (w : UInt32) (l r : String) :
    binaryText (.bits w false) o.op l r = binaryText (.bits w false) o.wrapping l r := by
  cases o <;> rfl

theorem wrapping_gives {p : Program} {block : Option BlockId} (o : Saturating) (w : UInt32)
    (l r : String) : ∃ text, Gives p block (binaryText (.bits w false) o.wrapping l r) text := by
  cases o with
  | add | sub => exact ⟨_, .bind (.pure _) (.pure _)⟩

theorem Gives.result_eq {α : Type} {p : Program} {x : LowerM α} {a b : α} {env : Env}
    (h : Gives p env.block x a) (hp : env.program = p) (h' : Gives p env.block x b) : a = b := by
  have heq := congrFun ((h env hp rfl).symm.trans (h' env hp rfl)) ⟨.empty, .empty⟩
  injection heq with heq
  injection heq

variable {env : Env}

/-- A saturating operator on bit strings that fit scalars lowers its operands, with nothing reported
or put around them by itself. Its text has the remainder of the unbounded result, which is the
saturated result if and only if the unbounded one is in the range of the type. -/
theorem saturates_iff_in_range (hv : env.program.validate = .ok ()) (o : Saturating) {w : Width}
    {i j k : ExprId} {left right : Node}
    (h : env.program.Is i (.bits w.bits false) (.binary o.op j k))
    (hj : env.program.Is j (.bits w.bits false) left)
    (hk : env.program.Is k (.bits w.bits false) right) {mode : Mode} {s u : State} {text : String}
    (hrun : expr i mode env s = (.ok text, u)) :
    ∃ l t r, expr j mode.child env s = (.ok l, t) ∧ expr k mode.child env t = (.ok r, u) ∧
      ∀ a b, Operand l a → Operand r b → (∃ e, Operand text e) ∧
        ∀ (σ : Store) (x y : Nat), x < 2 ^ w.size → y < 2 ^ w.size →
          evaluate σ l = some (x : Int) → evaluate σ r = some (y : Int) →
          evaluate σ text = some (o.exact x y % 2 ^ w.size) ∧
          (evaluate σ text = some (o.clamp w.size x y) ↔ o.InRange w.size x y) := by
  have wf := Program.WellFormed.of_validate hv
  obtain ⟨id, he⟩ := h
  obtain ⟨_, hj⟩ := hj
  obtain ⟨_, hk⟩ := hk
  have hnarrow : bufferWidth? (.bits w.bits false) = none := bufferWidth?_ty (.bit w)
  have hnode : expr i mode env = binary expr _ o.op j k mode env := expr_eq_nodeText wf he mode
  rw [hnode, binary_of_narrow hj hk hnarrow hnarrow hnarrow] at hrun
  obtain ⟨l, t, hl, hrun⟩ := exists_of_bind hrun
  obtain ⟨r, t', hr, hrun⟩ := exists_of_bind hrun
  obtain ⟨f, hop, hf⟩ := o.wrapping_means w
  rw [binaryText_saturating] at hrun
  obtain ⟨text', hgives⟩ : ∃ text, Gives env.program env.block
      (binaryText (.bits w.bits false) o.wrapping l r) text := wrapping_gives o w.bits l r
  rw [hgives env rfl rfl] at hrun
  cases hrun
  refine ⟨l, t, r, hl, hr, fun a b ha hb => ?_⟩
  obtain ⟨e, ⟨text', hgives', he'⟩, heval⟩ : ∃ e, Renders env.program env.block
      (binaryText (.bits w.bits false) o.wrapping l r) e ∧ _ := binaryText_renders hop ha hb
  obtain rfl : text = text' := hgives.result_eq rfl hgives'
  refine ⟨⟨e, he'⟩, fun σ x y hx hy hlx hry => ?_⟩
  rw [ha.evaluate_eq] at hlx
  rw [hb.evaluate_eq] at hry
  have hvalue : evaluate σ text = some (o.exact x y % 2 ^ w.size) := by
    have hxy := heval σ (BitVec.ofNatLT x hx) (BitVec.ofNatLT y hy) hlx hry (by cases o <;> nofun)
    rw [he'.evaluate_eq, hxy]
    exact congrArg some (hf _ _)
  rw [hvalue]
  exact ⟨rfl, Option.some_inj.trans (o.exact_mod_eq_clamp_iff hx hy)⟩

/-- The saturating sum and the saturating difference of two bytes. -/
def saturatedPair : Program where
  exprs := #[.free 0 (.bits 8 false) "a", .free 1 (.bits 8 false) "b",
    .binary 2 (.bits 8 false) .addSat 0 1, .binary 3 (.bits 8 false) .subSat 0 1]

/-- The variables of the two operands. -/
def pairStore (a b : Int) : Store
  | .name "a" => some a
  | .name "b" => some b
  | _ => none

/-- The sum of 100 and 50 fits the byte and is right, that of 200 and 100 does not and is not. -/
theorem saturatedPair_right_in_range :
    let env : Env := ⟨⟨saturatedPair, .standard, .empty⟩, none⟩
    ∃ text u, saturatedPair.validate = .ok () ∧
      expr ⟨2⟩ .value env ⟨.empty, .empty⟩ = (.ok text, u) ∧
      evaluate (pairStore 100 50) text = some (Saturating.add.clamp 8 100 50) ∧
      evaluate (pairStore 200 100) text ≠ some (Saturating.add.clamp 8 200 100) := by
  intro env
  have wf : saturatedPair.WellFormed := .of_validate rfl
  have ha : Gives saturatedPair none (expr ⟨0⟩ .value) "a" := .expr wf rfl (.pure "a")
  have hb : Gives saturatedPair none (expr ⟨1⟩ .value) "b" := .expr wf rfl (.pure "b")
  have hrun := run_of_toOption (x := expr ⟨2⟩ .value env ⟨.empty, .empty⟩) (a := "(0xff&(a+b))")
    (by decide +kernel)
  obtain ⟨l, t, r, hl, hr, hvalue⟩ :=
    saturates_iff_in_range rfl .add (w := ⟨8, by decide, by decide⟩) ⟨_, rfl⟩ ⟨_, rfl⟩ ⟨_, rfl⟩ hrun
  rw [show Mode.value.child = .value from rfl, ha env rfl rfl] at hl
  rw [show Mode.value.child = .value from rfl, hb env rfl rfl] at hr
  cases hl
  cases hr
  have hlabel : Label "a" ∧ Label "b" := by decide
  obtain ⟨-, hvalue⟩ := hvalue _ _ hlabel.1.operand hlabel.2.operand
  obtain ⟨-, hin⟩ := hvalue (pairStore 100 50) 100 50 (by decide) (by decide)
    (hlabel.1.operand.evaluate_eq _) (hlabel.2.operand.evaluate_eq _)
  obtain ⟨-, hout⟩ := hvalue (pairStore 200 100) 200 100 (by decide) (by decide)
    (hlabel.1.operand.evaluate_eq _) (hlabel.2.operand.evaluate_eq _)
  exact ⟨_, _, rfl, hrun, hin.2 (by decide), fun h => absurd (hout.1 h) (by decide)⟩

/-- With 200 and 100 the sum is 44, not 255; with 3 and 5 the difference is 254, not 0. Nothing is
reported. -/
theorem saturatedPair_wraps : let lowered (i : ExprId) :=
      (Session.start .standard).lowerExpression saturatedPair i none .value
    ∃ sum difference,
      (lowered ⟨2⟩).1 = .ok ⟨.expression, [], sum, []⟩ ∧
      (lowered ⟨3⟩).1 = .ok ⟨.expression, [], difference, []⟩ ∧
      (lowered ⟨2⟩).2.diagnostics = [] ∧ (lowered ⟨3⟩).2.diagnostics = [] ∧
      evaluate (pairStore 200 100) sum = some 44 ∧ Saturating.add.clamp 8 200 100 = 255 ∧
      evaluate (pairStore 3 5) difference = some 254 ∧ Saturating.sub.clamp 8 3 5 = 0 := by
  intro lowered
  refine ⟨"(0xff&(a+b))", "(0xff&(a+(256-b)))", ?_, ?_, ?_, ?_, ?_, rfl, ?_, rfl⟩ <;> decide +kernel

end Lower

end PacketC
