import PacketC.Proofs.Scalar.Place

/-! Arithmetic with signs. A formula is an expression over integers of at most 32 bits, with or
without a sign, made of negations, sums, differences, products, comparisons and casts that take or
give a signed number. Its value is that of bit vectors of the declared widths. The number that the
target computes for it wraps around at some nodes only: it is congruent to the value, as long as
what is compared or widened is in the range of its type, and it is the value exactly where it is in
that range itself. -/

namespace PacketC

open Code

/-! ### Quantities -/

inductive Quantity where
  | num (signed : Bool) (w : Width)
  | bool

namespace Quantity

def ty : Quantity → Ty
  | .num signed w => .bits w.bits signed
  | .bool => .bool

abbrev Value : Quantity → Type
  | .num _ w => BitVec w.size
  | .bool => Bool

/-- A value as a number, in two's complement where there is a sign. -/
def number : (q : Quantity) → q.Value → Int
  | .num true _, (x : BitVec _) => x.toInt
  | .num false _, (x : BitVec _) => x.toNat
  | .bool, (b : Bool) => b.toNat

/-- The numbers of the type. -/
def InRange : Quantity → Int → Prop
  | .num true w, n => -2 ^ (w.size - 1) ≤ n ∧ n < 2 ^ (w.size - 1)
  | .num false w, n => 0 ≤ n ∧ n < 2 ^ w.size
  | .bool, n => n = 0 ∨ n = 1

instance : (q : Quantity) → (n : Int) → Decidable (q.InRange n)
  | .num true _, _ | .num false _, _ => inferInstanceAs (Decidable (_ ∧ _))
  | .bool, _ => inferInstanceAs (Decidable (_ ∨ _))

/-- The number and the value agree in the bits of the type. -/
def Near : (q : Quantity) → Int → q.Value → Prop
  | .num _ w, n, (x : BitVec _) => BitVec.ofInt w.size n = x
  | .bool, n, (b : Bool) => n = b.toNat

theorem near_number (q : Quantity) (x : q.Value) : q.Near (q.number x) x := by
  rcases q with ⟨_ | _, w⟩ | _
  · refine (BitVec.ofInt_natCast ..).trans ?_
    exact BitVec.ofNat_toNat w.size (x : BitVec w.size) ▸ BitVec.setWidth_eq _
  · exact BitVec.ofInt_toInt
  · rfl

theorem inRange_number (q : Quantity) (x : q.Value) : q.InRange (q.number x) := by
  rcases q with ⟨_ | _, w⟩ | _
  · have hlt : ((x : BitVec w.size).toNat : Int) < 2 ^ w.size := by exact_mod_cast BitVec.isLt _
    exact ⟨Int.natCast_nonneg _, hlt⟩
  · exact ⟨BitVec.le_toInt _, BitVec.toInt_lt⟩
  · revert x
    decide

theorem two_mul_half (w : Width) : (2 : Int) * 2 ^ (w.size - 1) = 2 ^ w.size := by
  have hsucc : w.size - 1 + 1 = w.size := Nat.sub_add_cancel w.pos
  rw [← Int.pow_succ', hsucc]

/-- A number that agrees with the value is the value where it is in range, and only there. -/
theorem eq_number_iff {q : Quantity} {n : Int} {x : q.Value} (h : q.Near n x) :
    n = q.number x ↔ q.InRange n := by
  refine ⟨fun heq => heq ▸ q.inRange_number x, fun hr => ?_⟩
  rcases q with ⟨_ | _, w⟩ | _
  · cases h
    have hlt : n < ((2 ^ w.size : Nat) : Int) := by exact_mod_cast hr.2
    show n = ((BitVec.ofInt w.size n).toNat : Int)
    rw [BitVec.toNat_ofInt, Int.emod_eq_of_lt hr.1 hlt, Int.toNat_of_nonneg hr.1]
  · cases h
    have hhalf := two_mul_half w
    show n = (BitVec.ofInt w.size n).toInt
    obtain ⟨hlo, hhi⟩ := hr
    rw [BitVec.toInt_ofInt, Int.bmod_eq_of_le_mul_two (by push_cast; omega) (by push_cast; omega)]
  · exact h

end Quantity

/-! ### Wrapping around -/

theorem emod_wrap {v bits : Nat} (h : v ≤ bits) (signed : Bool) (n : Int) :
    IntType.wrap ⟨signed, bits⟩ n % 2 ^ v = n % 2 ^ v := by
  have hdvd : (2 : Int) ^ v ∣ 2 ^ bits := pow_dvd_pow 2 h
  have hbits : IntType.wrap ⟨signed, bits⟩ n % 2 ^ bits = n % 2 ^ bits := by
    cases signed with
    | false => exact Int.emod_emod_of_dvd _ (dvd_refl _)
    | true => exact_mod_cast Int.bmod_emod (x := n) (m := 2 ^ bits)
  rw [← Int.emod_emod_of_dvd _ hdvd, hbits, Int.emod_emod_of_dvd _ hdvd]

theorem ofInt_eq_ofInt_iff {w : Nat} {m n : Int} :
    BitVec.ofInt w m = BitVec.ofInt w n ↔ m % 2 ^ w = n % 2 ^ w := by
  rw [← BitVec.toNat_inj, BitVec.toNat_ofInt, BitVec.toNat_ofInt]
  have hpos : (0 : Int) < 2 ^ w := Int.pow_pos (by decide)
  have hm := Int.emod_nonneg m (Int.ne_of_gt hpos)
  have hn := Int.emod_nonneg n (Int.ne_of_gt hpos)
  push_cast
  omega

theorem ofInt_wrap {v bits : Nat} (h : v ≤ bits) (signed : Bool) (n : Int) :
    BitVec.ofInt v (IntType.wrap ⟨signed, bits⟩ n) = BitVec.ofInt v n :=
  ofInt_eq_ofInt_iff.2 (emod_wrap h signed n)

/-- Agreement in some bits is agreement in fewer of them. -/
theorem ofInt_congr {w v : Nat} (h : v ≤ w) {m n : Int}
    (heq : BitVec.ofInt w m = BitVec.ofInt w n) : BitVec.ofInt v m = BitVec.ofInt v n := by
  have hdvd : (2 : Int) ^ v ∣ 2 ^ w := pow_dvd_pow 2 h
  rw [ofInt_eq_ofInt_iff] at *
  rw [← Int.emod_emod_of_dvd _ hdvd, heq, Int.emod_emod_of_dvd _ hdvd]

theorem inRange_wrap (signed : Bool) (w : Width) (n : Int) :
    (Quantity.num signed w).InRange (IntType.wrap ⟨signed, w.size⟩ n) := by
  have hpos : (0 : Int) < 2 ^ w.size := Int.pow_pos (by decide)
  cases signed with
  | false => exact ⟨Int.emod_nonneg _ (Int.ne_of_gt hpos), Int.emod_lt_of_pos _ hpos⟩
  | true =>
    have h := (Quantity.num true w).inRange_number (BitVec.ofInt w.size n)
    rwa [Quantity.number, BitVec.toInt_ofInt] at h

/-- A scalar that holds the type changes none of its numbers. -/
theorem wrap_of_inRange {signed : Bool} {w : Width} {bits : Nat} (h : w.size ≤ bits) {n : Int}
    (hn : (Quantity.num signed w).InRange n) : IntType.wrap ⟨signed, bits⟩ n = n := by
  have hle : (2 : Int) ^ w.size ≤ 2 ^ bits := by exact_mod_cast Nat.pow_le_pow_right (by decide) h
  cases signed with
  | false => exact Int.emod_eq_of_lt hn.1 (Int.lt_of_lt_of_le hn.2 hle)
  | true =>
    have hhalf := Quantity.two_mul_half w
    obtain ⟨hlo, hhi⟩ := hn
    exact Int.bmod_eq_of_le_mul_two (by push_cast; omega) (by push_cast; omega)

theorem Quantity.InRange.widen {w v : Width} (h : w.size ≤ v.size) {n : Int}
    (hn : (Quantity.num true w).InRange n) : (Quantity.num true v).InRange n := by
  have hle : (2 : Int) ^ (w.size - 1) ≤ 2 ^ (v.size - 1) := by
    exact_mod_cast Nat.pow_le_pow_right (by decide) (Nat.sub_le_sub_right h 1)
  obtain ⟨hlo, hhi⟩ := hn
  exact ⟨by omega, by omega⟩

/-- The bits of the scalar that holds the width. -/
def Width.container (w : Width) : Nat := (Container.ofWidth w.size).bits?.getD 32

theorem bitsText_container (w : Width) (signed : Bool) :
    w.size ≤ w.container ∧
      IntType.ofName? (Ty.bitsText .parameter w.size signed) = some ⟨signed, w.container⟩ := by
  obtain ⟨n, hn, hle, hname⟩ := bitsText_scalar w.le signed
  have heq : w.container = n := by rw [Width.container, hn]; rfl
  rw [heq]
  exact ⟨hle, hname⟩

theorem container_of_isScalarWidth {w : Width} (h : Lower.isScalarWidth w.size = true) :
    w.container = w.size := by
  simp only [Lower.isScalarWidth, Bool.or_eq_true, beq_iff_eq] at h
  rcases h with (h | h) | h <;> rw [Width.container, h] <;> rfl

/-! ### Operators -/

/-- What the target computes for a negation: only an unsigned number wraps around. -/
def negated (signed : Bool) (w : Width) (n : Int) : Int :=
  if signed then -n else IntType.wrap ⟨false, w.size⟩ (-n)

/-- What the target computes for a cast: a signed number fits the scalar that holds the type, an
unsigned one the type. -/
def resized (signed : Bool) (v : Width) (n : Int) : Int :=
  IntType.wrap ⟨signed, if signed then v.container else v.size⟩ n

theorem ofInt_negated (signed : Bool) (w : Width) (n : Int) :
    BitVec.ofInt w.size (negated signed w n) = -BitVec.ofInt w.size n := by
  cases signed with
  | true => exact BitVec.ofInt_neg
  | false => exact (ofInt_wrap (Nat.le_refl w.size) false (-n)).trans BitVec.ofInt_neg

theorem ofInt_resized (signed : Bool) (v : Width) (n : Int) :
    BitVec.ofInt v.size (resized signed v n) = BitVec.ofInt v.size n := by
  cases signed with
  | true => exact ofInt_wrap (bitsText_container v true).1 _ _
  | false => exact ofInt_wrap (Nat.le_refl _) _ _

theorem inRange_resized {v : Width} (h : Lower.isScalarWidth v.size = true) (n : Int) :
    (Quantity.num true v).InRange (resized true v n) := by
  show (Quantity.num true v).InRange (IntType.wrap ⟨true, v.container⟩ n)
  rw [container_of_isScalarWidth h]
  exact inRange_wrap _ _ _

inductive RingOp where
  | add | sub | mul

namespace RingOp

def op : RingOp → BinaryOp
  | .add => .add
  | .sub => .sub
  | .mul => .mul

def apply : RingOp → Int → Int → Int
  | .add, m, n => m + n
  | .sub, m, n => m - n
  | .mul, m, n => m * n

def onBits {w : Nat} : RingOp → BitVec w → BitVec w → BitVec w
  | .add, x, y => x + y
  | .sub, x, y => x - y
  | .mul, x, y => x * y

theorem ofInt_apply {w : Nat} (o : RingOp) (m n : Int) :
    BitVec.ofInt w (o.apply m n) = o.onBits (.ofInt w m) (.ofInt w n) := by
  cases o with
  | add => exact BitVec.ofInt_add m n
  | sub =>
    rw [apply, Int.sub_eq_add_neg, BitVec.ofInt_add, BitVec.ofInt_neg, ← BitVec.sub_eq_add_neg]
    rfl
  | mul => exact BitVec.ofInt_mul m n

end RingOp

inductive CompareOp where
  | grt | geq | lss | leq | equ | neq

namespace CompareOp

def op : CompareOp → BinaryOp
  | .grt => .grt
  | .geq => .geq
  | .lss => .lss
  | .leq => .leq
  | .equ => .equ
  | .neq => .neq

def holds : CompareOp → Int → Int → Bool
  | .grt, m, n => n < m
  | .geq, m, n => n ≤ m
  | .lss, m, n => m < n
  | .leq, m, n => m ≤ n
  | .equ, m, n => m = n
  | .neq, m, n => m ≠ n

end CompareOp

/-! ### Formulas -/

namespace Program

inductive Formula (p : Program) : ExprId → Quantity → Type
  | leaf {i : ExprId} {s : Bool} {w : Width} (h : p.Reads i (.bits w.bits s)) :
      Formula p i (.num s w)
  | constant {i : ExprId} {s : Bool} {w : Width} (x : BitVec w.size) (base : UInt32)
      (h : p.Is i (.bits w.bits s) (.constant ((Quantity.num s w).number x) base)) :
      Formula p i (.num s w)
  | neg {i j : ExprId} {s : Bool} {w : Width} (h : p.Is i (.bits w.bits s) (.unary .neg j))
      (x : Formula p j (.num s w)) : Formula p i (.num s w)
  | arith {i j k : ExprId} {s : Bool} {w : Width} (o : RingOp)
      (h : p.Is i (.bits w.bits s) (.binary o.op j k)) (x : Formula p j (.num s w))
      (y : Formula p k (.num s w)) : Formula p i (.num s w)
  /-- Truth values have no order. -/
  | compare {i j k : ExprId} {q : Quantity} (o : CompareOp) (h : p.Is i .bool (.binary o.op j k))
      (ho : q = .bool → o.op.isEquality = true) (x : Formula p j q) (y : Formula p k q) :
      Formula p i .bool
  | cast {i j : ExprId} {s s' : Bool} {w v : Width}
      (h : p.Is i (.bits v.bits s') (.cast (.bits v.bits s') j)) (hs : (s || s') = true)
      (x : Formula p j (.num s w)) : Formula p i (.num s' v)

/-- What the leaves of a formula hold. -/
abbrev Valuation := ExprId → (q : Quantity) → q.Value

namespace Formula

variable {p : Program} {i : ExprId} {q : Quantity}

def value (ρ : Valuation) : {i : ExprId} → {q : Quantity} → p.Formula i q → q.Value
  | i, .num s w, .leaf _ => ρ i (.num s w)
  | _, _, .constant x _ _ => x
  | _, .num _ w, .neg _ x => -(show BitVec w.size from x.value ρ)
  | _, _, .arith o _ x y => o.onBits (x.value ρ) (y.value ρ)
  | _, _, .compare (q := q) o _ _ x y => o.holds (q.number (x.value ρ)) (q.number (y.value ρ))
  | _, .num _ v, .cast (s := s) (w := w) _ _ x =>
    BitVec.ofInt v.size ((Quantity.num s w).number (x.value ρ))

/-- The number that the target computes. -/
def computed (ρ : Valuation) : {i : ExprId} → {q : Quantity} → p.Formula i q → Int
  | i, .num s w, .leaf _ => (Quantity.num s w).number (ρ i (.num s w))
  | _, .num s w, .constant x _ _ => (Quantity.num s w).number x
  | _, .num s w, .neg _ x => negated s w (x.computed ρ)
  | _, .num s w, .arith o _ x y => IntType.wrap ⟨s, w.size⟩ (o.apply (x.computed ρ) (y.computed ρ))
  | _, _, .compare o _ _ x y => (o.holds (x.computed ρ) (y.computed ρ)).toNat
  | _, .num s v, .cast _ _ x => resized s v (x.computed ρ)

/-- What is compared or widened is in the range of its type. -/
def Sound (ρ : Valuation) : {i : ExprId} → {q : Quantity} → p.Formula i q → Prop
  | _, _, .leaf _ | _, _, .constant .. => True
  | _, _, .neg _ x => x.Sound ρ
  | _, _, .arith _ _ x y => x.Sound ρ ∧ y.Sound ρ
  | _, _, .compare (q := q) _ _ _ x y => x.Sound ρ ∧ y.Sound ρ ∧
      q.InRange (x.computed ρ) ∧ q.InRange (y.computed ρ)
  | _, .num _ v, .cast (s := s) (w := w) _ _ x => x.Sound ρ ∧
      (w.size < v.size → (Quantity.num s w).InRange (x.computed ρ))

/-- The target has a form for every node: signed arithmetic, and casts from unsigned numbers, only
at the widths of signed scalars. -/
def Supported : {i : ExprId} → {q : Quantity} → p.Formula i q → Prop
  | _, _, .leaf _ | _, _, .constant .. => True
  | _, _, .neg _ x => x.Supported
  | _, .num s w, .arith _ _ x y => x.Supported ∧ y.Supported ∧
      (s = true → Lower.isScalarWidth w.size = true)
  | _, _, .compare _ _ _ x y => x.Supported ∧ y.Supported
  | _, .num _ v, .cast (s := s) _ _ x => x.Supported ∧
      (s = false → Lower.isScalarWidth v.size = true)

/-- No signed number is negated, and none is cast to a narrower one at another width than that of a
signed scalar. -/
def Guarded : {i : ExprId} → {q : Quantity} → p.Formula i q → Prop
  | _, _, .leaf _ | _, _, .constant .. => True
  | _, .num s _, .neg _ x => x.Guarded ∧ s = false
  | _, _, .arith _ _ x y | _, _, .compare _ _ _ x y => x.Guarded ∧ y.Guarded
  | _, .num s' v, .cast (s := s) (w := w) _ _ x => x.Guarded ∧
      (s = true → s' = true → w.size ≤ v.size ∨ Lower.isScalarWidth v.size = true)

/-! ### Numbers and values -/

/-- Every node keeps the agreement with the value, in the bits of its type. -/
theorem near_computed (ρ : Valuation) (t : p.Formula i q) (h : t.Sound ρ) :
    q.Near (t.computed ρ) (t.value ρ) := by
  induction t with
  | leaf | constant => exact Quantity.near_number _ _
  | neg hi x ih => exact (ofInt_negated _ _ _).trans (congrArg _ (ih h))
  | @arith i j k s w o hi x y ihx ihy =>
    have hx : BitVec.ofInt w.size (x.computed ρ) = x.value ρ := ihx h.1
    have hy : BitVec.ofInt w.size (y.computed ρ) = y.value ρ := ihy h.2
    refine (ofInt_wrap (Nat.le_refl _) _ _).trans ?_
    rw [o.ofInt_apply, hx, hy]
    rfl
  | @compare i j k q o hi ho x y ihx ihy =>
    obtain ⟨hx, hy, hrx, hry⟩ := h
    have hx := (Quantity.eq_number_iff (ihx hx)).2 hrx
    have hy := (Quantity.eq_number_iff (ihy hy)).2 hry
    show ((o.holds (x.computed ρ) (y.computed ρ)).toNat : Int) = _
    rw [hx, hy]
    rfl
  | @cast i j s s' w v hi hs x ih =>
    obtain ⟨hx, hwiden⟩ := h
    refine (ofInt_resized _ _ _).trans ?_
    -- widening needs the number itself, narrowing the low bits only
    by_cases hlt : w.size < v.size
    · rw [(Quantity.eq_number_iff (ih hx)).2 (hwiden hlt)]
      rfl
    · have hsame := (ih hx).trans (Quantity.near_number (.num s w) (x.value ρ)).symm
      exact ofInt_congr (Nat.le_of_not_lt hlt) hsame

/-- The number is the value exactly where it is in range. -/
theorem computed_eq_iff (ρ : Valuation) (t : p.Formula i q) (h : t.Sound ρ) :
    t.computed ρ = q.number (t.value ρ) ↔ q.InRange (t.computed ρ) :=
  Quantity.eq_number_iff (t.near_computed ρ h)

/-- Every node of a guarded formula is in range. -/
theorem Guarded.inRange (ρ : Valuation) {t : p.Formula i q} (hg : t.Guarded) (hs : t.Supported) :
    t.Sound ρ ∧ q.InRange (t.computed ρ) := by
  induction t with
  | leaf | constant => exact ⟨trivial, Quantity.inRange_number _ _⟩
  | @neg i j s w hi x ih =>
    obtain ⟨hx, rfl⟩ := hg
    exact ⟨(ih hx hs).1, inRange_wrap _ _ _⟩
  | arith o hi x y ihx ihy =>
    exact ⟨⟨(ihx hg.1 hs.1).1, (ihy hg.2 hs.2.1).1⟩, inRange_wrap _ _ _⟩
  | compare o hi ho x y ihx ihy =>
    obtain ⟨hx, hrx⟩ := ihx hg.1 hs.1
    obtain ⟨hy, hry⟩ := ihy hg.2 hs.2
    exact ⟨⟨hx, hy, hrx, hry⟩, Quantity.inRange_number .bool (o.holds _ _)⟩
  | @cast i j s s' w v hi hsign x ih =>
    obtain ⟨hx, hr⟩ := ih hg.1 hs.1
    refine ⟨⟨hx, fun _ => hr⟩, ?_⟩
    cases s' with
    | false => exact inRange_wrap _ _ _
    | true =>
      by_cases hv : Lower.isScalarWidth v.size = true
      · exact inRange_resized hv _
      · cases s with
        | false => exact absurd (hs.2 rfl) hv
        | true =>
          have hle := (hg.2 rfl rfl).resolve_right hv
          have hfits := wrap_of_inRange (hle.trans (bitsText_container v true).1) hr
          show (Quantity.num true v).InRange (IntType.wrap ⟨true, v.container⟩ _)
          rw [hfits]
          exact hr.widen hle

end Formula

end Program

end PacketC
