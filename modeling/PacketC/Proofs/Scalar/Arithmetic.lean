import Mathlib.Data.Nat.Bitwise
import PacketC.Proofs.Scalar.Tree

/-! The arithmetic of the target against that of bit vectors. An operator of the target computes
with unbounded integers; on the numbers that stand for two values it either gives the number of
their result, or one that is congruent to it, so that a mask makes up the difference. -/

namespace PacketC

open Code (Op UnOp truth)

/-! ### Natural numbers -/

theorem div_natCast {x y : Nat} (h : y ≠ 0) : Op.div.apply x y = some ((x / y : Nat) : Int) := by
  rw [Op.apply, if_neg (Int.natCast_ne_zero.2 h), Int.ofNat_tdiv]

theorem mod_natCast {x y : Nat} (h : y ≠ 0) : Op.mod.apply x y = some ((x % y : Nat) : Int) := by
  rw [Op.apply, if_neg (Int.natCast_ne_zero.2 h), Int.ofNat_tmod]

theorem shl_natCast (x y : Nat) : Op.shl.apply x y = some ((x <<< y : Nat) : Int) := by
  rw [Nat.shiftLeft_eq]
  rfl

theorem shr_natCast (x y : Nat) : Op.shr.apply x y = some ((x >>> y : Nat) : Int) := by
  rw [Nat.shiftRight_eq_div_pow]
  rfl

/-- A mask takes the number below the number of values. -/
theorem band_mask (w v : Nat) :
    Op.band.apply (2 ^ w - 1 : Nat) v = some ((v % 2 ^ w : Nat) : Int) := by
  show some (((2 ^ w - 1) &&& v : Nat) : Int) = _
  rw [Nat.and_comm, Nat.and_two_pow_sub_one_eq_mod]

theorem band_mask_compl {w x : Nat} (h : x < 2 ^ w) :
    Op.band.apply (2 ^ w - 1 : Nat) (UnOp.compl.apply x) = some ((2 ^ w - 1 - x : Nat) : Int) := by
  show some ((Nat.ldiff (2 ^ w - 1) x : Nat) : Int) = _
  congr 2
  refine Nat.eq_of_testBit_eq fun i => ?_
  rw [Nat.testBit_ldiff, Nat.testBit_two_pow_sub_one, Nat.sub_sub, Nat.add_comm 1,
    Nat.testBit_two_pow_sub_succ h]

/-! ### Operators -/

theorem truth_eq (p : Prop) [Decidable p] : truth p = ((decide p).toNat : Int) := by
  by_cases h : p <;> simp [truth, h]

namespace BinaryOp

/-- The operator of the target that the symbol stands for. -/
def target : BinaryOp → Op
  | .add | .addSat => .add
  | .sub | .subSat => .sub
  | .mul => .mul
  | .div => .div
  | .mod => .mod
  | .shl => .shl
  | .shr => .shr
  | .grt => .gt
  | .geq => .ge
  | .lss => .lt
  | .leq => .le
  | .equ => .eq
  | .neq => .ne
  | .band => .band
  | .bor => .bor
  | .bxor => .bxor
  | .land => .land
  | .lor => .lor

theorem symbol_target (op : BinaryOp) : Code.Symbol op.symbol [op.target.token] := by
  cases op <;> decide

variable {op : BinaryOp} {σ₁ σ₂ τ : Scalar} {f : σ₁.Value → σ₂.Value → τ.Value}

/-- An operator that cannot leave the width is exact. -/
theorem Means.apply_eq (hop : op.Means σ₁ σ₂ τ f) (hw : op.isWidthSensitive = false)
    (x : σ₁.Value) (y : σ₂.Value) (hy : op = .div ∨ op = .mod → σ₂.number y ≠ 0) :
    op.target.apply (σ₁.number x) (σ₂.number y) = some (τ.number (f x y) : Int) := by
  cases hop with
  | add | sub | mul | shl | shr => cases hw
  | div w => exact div_natCast (hy (.inl rfl))
  | mod w => exact mod_natCast (hy (.inr rfl))
  | band w => exact congrArg (some ∘ Nat.cast) (BitVec.toNat_and ..).symm
  | bor w => exact congrArg (some ∘ Nat.cast) (BitVec.toNat_or ..).symm
  | bxor w => exact congrArg (some ∘ Nat.cast) (BitVec.toNat_xor ..).symm
  | grt w | geq w | lss w | leq w =>
    simp [target, Op.apply, Scalar.number, truth_eq, BitVec.lt_def, BitVec.le_def]
  | equ w | neq w =>
    simp [target, Op.apply, Scalar.number, truth_eq, BitVec.toNat_eq]
  | equBool | neqBool | land | lor =>
    revert x y
    decide

/-- One that can is exact up to a multiple of the number of values. -/
theorem Means.apply_mod {w : Width} {f : σ₁.Value → σ₂.Value → BitVec w.size}
    (hop : op.Means σ₁ σ₂ (.bit w) f) (hw : op.isWidthSensitive = true) (hsub : op ≠ .sub)
    (x : σ₁.Value) (y : σ₂.Value) :
    ∃ v : Nat, op.target.apply (σ₁.number x) (σ₂.number y) = some (v : Int) ∧
      v % 2 ^ w.size = (f x y).toNat := by
  cases hop with
  | add => exact ⟨_, rfl, (BitVec.toNat_add ..).symm⟩
  | sub => exact absurd rfl hsub
  | mul => exact ⟨_, rfl, (BitVec.toNat_mul ..).symm⟩
  | shl w v => exact ⟨_, shl_natCast _ _, BitVec.toNat_shiftLeft.symm⟩
  | shr w v =>
    have hlt := BitVec.isLt ((x : BitVec w.size) >>> (y : BitVec v.size).toNat)
    exact ⟨_, shr_natCast _ _, Nat.mod_eq_of_lt hlt⟩
  | div | mod | band | bor | bxor => cases hw

end BinaryOp

theorem sub_mod {w : Nat} (x y : BitVec w) :
    (x.toNat + (2 ^ w - y.toNat)) % 2 ^ w = (x - y).toNat := by
  rw [BitVec.toNat_sub, Nat.add_comm]

end PacketC
