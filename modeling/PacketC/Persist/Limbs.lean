import PacketC.Persist.Decoder

/-! The persisted form of an unbounded integer: its sign and the 32-bit limbs of its magnitude,
the lowest first. -/

namespace PacketC.Limbs

/-- The limbs of a number; there are none for zero, and the last one is not zero. -/
def ofNat (n : Nat) : List Nat :=
  if n = 0 then [] else n % UInt32.size :: ofNat (n / UInt32.size)
termination_by n
decreasing_by exact Nat.div_lt_self (by omega) (by decide)

def toNat : List Nat → Nat
  | [] => 0
  | limb :: rest => limb + UInt32.size * toNat rest

theorem toNat_ofNat (n : Nat) : toNat (ofNat n) = n := by
  fun_induction ofNat n with
  | case1 => rfl
  | case2 n _ ih => rw [toNat, ih]; exact Nat.mod_add_div n _

theorem lt_of_mem_ofNat {n limb : Nat} (h : limb ∈ ofNat n) : limb < UInt32.size := by
  fun_induction ofNat n with
  | case1 => simp at h
  | case2 n _ ih =>
    rcases List.mem_cons.1 h with rfl | h
    · exact Nat.mod_lt _ (by decide)
    · exact ih h

def toJson (n : Int) : Json := .arr [.int n.sign, .list .nat (ofNat n.natAbs)]

/-- A sign of 0 makes zero of any limbs. -/
def ofJson : Decoder Int
  | d + 1, .arr [.int sign, limbs] => do
    if sign < -1 ∨ 1 < sign then none
    let limbs ← Decoder.list (Decoder.natBelow UInt32.size) d limbs
    return sign * toNat limbs
  | _, _ => none

end PacketC.Limbs
