import PacketC.Proofs.Scalar.Arithmetic
import PacketC.Proofs.Scalar.Place

/-! The nodes of scalar expressions. Where the parts of a node are written as operands, the node is
written as an operand too, and its term computes the value of the node from the values of the
parts. -/

namespace PacketC

open Code Lower

variable {p : Program} {block : Option BlockId}

/-! ### Texts of nodes -/

/-- The action gives the text of a term, and does nothing else. -/
def Renders (p : Program) (block : Option BlockId) (x : LowerM String) (e : Term) : Prop :=
  ∃ text, Gives p block x text ∧ Operand text e

/-- Where the part has a value, the term has the value of the function there. -/
def Computes (α β : Scalar) (f : α.Value → β.Value) (a e : Term) : Prop :=
  ∀ (σ : Store) (x : α.Value), a.eval σ = some (α.number x : Int) →
    e.eval σ = some (β.number (f x) : Int)

section Nodes

variable {σ : Store} {inner l r : String} {e : Term} {v w : Width} {α β : Scalar} {op : BinaryOp}

theorem operand_masked (w : Nat) (h : Operand inner e) :
    Operand (masked (Literal.mask w ++ "&") inner)
      (.binary .band (.num (2 ^ w - 1)) e) := by
  have htext : masked (Literal.mask w ++ "&") inner =
      "(" ++ Literal.mask w ++ "&" ++ inner ++ ")" := by
    simp only [masked, String.append_assoc]
  rw [htext]
  exact .binary (by decide) (operand_mask w) h

theorem eval_masked (w : Nat) {v : Nat} (h : e.eval σ = some (v : Int)) :
    (Term.binary .band (.num (2 ^ w - 1)) e).eval σ = some ((v % 2 ^ w : Nat) : Int) := by
  rw [Term.eval_binary rfl h, band_mask]

theorem eval_cond {c t f : Term} {b : Bool} (h : c.eval σ = some (b.toNat : Int)) :
    (Term.cond c t f).eval σ = if b then t.eval σ else f.eval σ := by
  rw [Term.eval, h]
  cases b <;> rfl

variable {f : α.Value → β.Value} {a b : Term}

theorem unaryText_renders {op : UnaryOp} (hop : op.Means α β f) (h : Operand inner e) :
    ∃ e', Renders p block (unaryText β.ty op inner) e' ∧ Computes α β f e e' := by
  cases hop with
  | neg w =>
    have hminus : Symbol "-" [Op.sub.token] := by decide
    have hinner := (operand_decimal (2 ^ w.size)).binary hminus h
    refine ⟨_, ⟨_, .bind (.pure _) (.pure _), operand_masked w.size hinner⟩, fun σ x hx => ?_⟩
    have hle : (x : BitVec w.size).toNat ≤ 2 ^ w.size := (BitVec.isLt _).le
    have hsub : (Term.binary .sub (.num (2 ^ w.size)) e).eval σ =
        some ((2 ^ w.size - (x : BitVec w.size).toNat : Nat) : Int) := by
      rw [Term.eval_binary rfl hx, Int.ofNat_sub hle]
      rfl
    rw [eval_masked w.size hsub]
    exact congrArg (some ∘ Nat.cast) (BitVec.toNat_neg _).symm
  | cmpl w =>
    have hcompl : Symbol "(~" [.one '(', UnOp.compl.token] := by decide
    refine ⟨_, ⟨_, .bind (.pure _) (.pure _), operand_masked w.size (h.unary hcompl (by decide))⟩,
      fun σ x hx => ?_⟩
    have hlnot : (Term.unary .compl e).eval σ =
        some (UnOp.compl.apply ((x : BitVec w.size).toNat : Int)) := by
      rw [Term.eval, hx]
      rfl
    rw [Term.eval_binary rfl hlnot, band_mask_compl (BitVec.isLt _)]
    exact congrArg (some ∘ Nat.cast) BitVec.toNat_not.symm
  | lnot =>
    have hnot : Symbol "(!" [.one '(', UnOp.not.token] := by decide
    refine ⟨_, ⟨_, .pure _, h.unary hnot (by decide)⟩, fun σ x hx => ?_⟩
    rw [Term.eval, hx]
    clear hx
    revert x
    decide

theorem sub_text (w : Nat) (l r : String) : "(" ++ l ++ "+(" ++ power w ++ "-" ++ r ++ "))" =
    "(" ++ l ++ "+" ++ ("(" ++ Literal.digits 10 (2 ^ w) ++ "-" ++ r ++ ")") ++ ")" := by
  have hopen : "+(" = "+" ++ "(" := rfl
  have hclose : "))" = ")" ++ ")" := rfl
  rw [hopen, hclose, power]
  simp only [String.append_assoc]
  rfl

/-- A difference is the sum with what is missing to the number of values. -/
theorem operand_sub (w : Nat) (hl : Operand l a) (hr : Operand r b) :
    Operand ("(" ++ l ++ "+(" ++ power w ++ "-" ++ r ++ "))")
      (.binary .add a (.binary .sub (.num (2 ^ w)) b)) := by
  have hminus : Symbol "-" [Op.sub.token] := by decide
  have hplus : Symbol "+" [Op.add.token] := by decide
  rw [sub_text]
  exact hl.binary hplus ((operand_decimal (2 ^ w)).binary hminus hr)

theorem subText_renders (w : Width) (hl : Operand l a) (hr : Operand r b) :
    ∃ e, Renders p block (binaryText (.bits w.bits false) .sub l r) e ∧
      ∀ (σ : Store) (x y : BitVec w.size), a.eval σ = some (x.toNat : Int) →
        b.eval σ = some (y.toNat : Int) → e.eval σ = some ((x - y).toNat : Int) := by
  refine ⟨_, ⟨_, .bind (.pure _) (.pure _), operand_masked w.size (operand_sub w.size hl hr)⟩,
    fun σ x y hx hy => ?_⟩
  have hdiff : (Term.binary .sub (.num (2 ^ w.size)) b).eval σ =
      some ((2 ^ w.size - y.toNat : Nat) : Int) := by
    rw [Term.eval_binary rfl hy, Int.ofNat_sub y.isLt.le]
    rfl
  have hadd : (Term.binary .add a (.binary .sub (.num (2 ^ w.size)) b)).eval σ =
      some ((x.toNat + (2 ^ w.size - y.toNat) : Nat) : Int) := Term.eval_binary hx hdiff
  rw [eval_masked w.size hadd, sub_mod]

theorem operand_applied (op : BinaryOp) (hl : Operand l a) (hr : Operand r b) :
    Operand ("(" ++ appliedText l op r ++ ")") (.binary op.target a b) := by
  have htext : "(" ++ appliedText l op r ++ ")" = "(" ++ l ++ op.symbol ++ r ++ ")" := by
    simp only [appliedText, String.append_assoc]
  rw [htext]
  exact hl.binary op.symbol_target hr

theorem binaryText_renders {γ : Scalar} {f : α.Value → β.Value → γ.Value} (hop : op.Means α β γ f)
    (hl : Operand l a) (hr : Operand r b) :
    ∃ e, Renders p block (binaryText γ.ty op l r) e ∧ ∀ (σ : Store) (x : α.Value) (y : β.Value),
      a.eval σ = some (α.number x : Int) → b.eval σ = some (β.number y : Int) →
      (op = .div ∨ op = .mod → β.number y ≠ 0) → e.eval σ = some (γ.number (f x y) : Int) := by
  have hplain := operand_applied op hl hr
  cases hw : op.isWidthSensitive with
  | false =>
    refine ⟨_, ⟨_, ?_, hplain⟩, fun σ x y hx hy hne => ?_⟩
    · unfold binaryText
      rw [hw]
      exact .pure _
    · rw [Term.eval_binary hx hy, hop.apply_eq hw x y hne]
  | true =>
    by_cases hsub : op = .sub
    · subst hsub
      cases hop with
      | sub w =>
        obtain ⟨e, he, heval⟩ := subText_renders w hl hr
        exact ⟨e, he, fun σ x y hx hy _ => heval σ x y hx hy⟩
    · obtain ⟨w, rfl, hgives⟩ : ∃ w, γ = .bit w ∧
          Gives p block (binaryText (Scalar.bit w).ty op l r)
            (masked (Literal.mask w.size ++ "&") ("(" ++ appliedText l op r ++ ")")) := by
        cases hop with
        | add w | mul w | shl w | shr w => exact ⟨w, rfl, .bind (.pure _) (.pure _)⟩
        | sub => exact absurd rfl hsub
        | _ => cases hw
      refine ⟨_, ⟨_, hgives, operand_masked w.size hplain⟩, fun σ x y hx hy _ => ?_⟩
      obtain ⟨v, hv, hmod⟩ := hop.apply_mod hw hsub x y
      have hinner : (Term.binary op.target a b).eval σ = some (v : Int) := by
        rw [Term.eval_binary hx hy, hv]
      rw [eval_masked w.size hinner]
      exact congrArg (some ∘ Nat.cast) hmod

theorem operand_nat (n : Nat) : Operand (toString n) (.num n) := operand_decimal n

theorem operand_slice (lo : UInt32) (h : Operand inner e) :
    ∃ e', Operand (masked (Literal.mask v.size ++ "&")
        ("(" ++ inner ++ ">>" ++ toString lo.toNat ++ ")")) e' ∧
      Computes (.bit w) (.bit v)
        (fun (x : BitVec w.size) => x.extractLsb' lo.toNat v.size) e e' := by
  have hshr : Symbol ">>" [Op.shr.token] := by decide
  refine ⟨_, operand_masked v.size (h.binary hshr (operand_nat lo.toNat)), fun σ x hx => ?_⟩
  have hinner : (Term.binary .shr e (.num lo.toNat)).eval σ =
      some (((x : BitVec w.size).toNat >>> lo.toNat : Nat) : Int) := by
    rw [Term.eval_binary hx rfl]
    exact shr_natCast _ _
  rw [eval_masked v.size hinner]
  exact congrArg (some ∘ Nat.cast) (BitVec.extractLsb'_toNat ..).symm

theorem concat_text (l r n : String) : "((" ++ l ++ "<<" ++ n ++ ") | " ++ r ++ ")" =
    "(" ++ ("(" ++ l ++ "<<" ++ n ++ ")") ++ " | " ++ r ++ ")" := by simp [← String.toList_inj]

theorem operand_concat {u : Width} (hl : Operand l a) (hr : Operand r b) :
    ∃ e, Operand ("((" ++ l ++ "<<" ++ toString v.size ++ ") | " ++ r ++ ")") e ∧
      ∀ (σ : Store) (x : BitVec u.size) (y : BitVec v.size), a.eval σ = some (x.toNat : Int) →
        b.eval σ = some (y.toNat : Int) → e.eval σ = some ((x ++ y).toNat : Int) := by
  have hshl : Symbol "<<" [Op.shl.token] := by decide
  have hor : Symbol " | " [Op.bor.token] := by decide
  rw [concat_text]
  refine ⟨_, (hl.binary hshl (operand_nat v.size)).binary hor hr, fun σ x y hx hy => ?_⟩
  have hinner : (Term.binary .shl a (.num v.size)).eval σ =
      some ((x.toNat <<< v.size : Nat) : Int) := by
    rw [Term.eval_binary hx rfl, shl_natCast]
  rw [Term.eval_binary hinner hy, BitVec.toNat_append]
  rfl

theorem resizeText_renders (w v : Width) (h : Operand inner e) :
    ∃ e', Renders p block (castText (Scalar.bit w).ty (Scalar.bit v).ty inner) e' ∧
      Computes (.bit w) (.bit v) (fun (x : BitVec w.size) => x.setWidth v.size) e e' := by
  by_cases hlt : v.bits < w.bits
  · have hgives : Gives p block (castText (Scalar.bit w).ty (Scalar.bit v).ty inner)
        (masked (Literal.mask v.size ++ "&") inner) := by
      simp only [castText, Scalar.ty, if_pos hlt]
      exact .bind (.pure _) (.pure _)
    refine ⟨_, ⟨_, hgives, operand_masked v.size h⟩, fun σ x hx => ?_⟩
    rw [eval_masked v.size hx]
    exact congrArg (some ∘ Nat.cast) (BitVec.toNat_setWidth ..).symm
  · -- the number stays the same, since the width does not shrink
    have hgives : Gives p block (castText (Scalar.bit w).ty (Scalar.bit v).ty inner) inner := by
      simp only [castText, Scalar.ty, if_neg hlt]
      exact .pure _
    refine ⟨e, ⟨_, hgives, h⟩, fun σ x hx => ?_⟩
    have hle : w.size ≤ v.size := by
      rw [UInt32.lt_iff_toNat_lt] at hlt
      exact Nat.not_lt.1 hlt
    have hx' : (x : BitVec w.size).toNat < 2 ^ v.size :=
      Nat.lt_of_lt_of_le (BitVec.isLt _) (Nat.pow_le_pow_right (by decide) hle)
    rw [hx]
    exact congrArg (some ∘ Nat.cast) ((BitVec.toNat_setWidth ..).trans (Nat.mod_eq_of_lt hx')).symm

theorem castText_renders (hf : Scalar.Converts α β f) (h : Operand inner e) :
    ∃ e', Renders p block (castText α.ty β.ty inner) e' ∧ Computes α β f e e' := by
  cases hf with
  | resize w v => exact resizeText_renders w v h
  | toBool =>
    refine ⟨e, ⟨_, .pure _, h.paren⟩, fun σ x hx => ?_⟩
    have hbit : ∀ x : BitVec 1, x.toNat = (decide (x = 1)).toNat := by decide
    rw [hx]
    exact congrArg (some ∘ Nat.cast) (hbit x)
  | ofBool =>
    have hquery : Symbol "? " [.one '?'] := by decide
    have hcolon : Symbol " : " [.one ':'] := by decide
    have htext : "(" ++ inner ++ "? 1 : 0)" =
        "(" ++ inner ++ "? " ++ Literal.digits 10 1 ++ " : " ++ Literal.digits 10 0 ++ ")" := by
      have hlast : "? 1 : 0)" =
        "? " ++ Literal.digits 10 1 ++ " : " ++ Literal.digits 10 0 ++ ")" := rfl
      rw [hlast]
      simp only [String.append_assoc]
    refine ⟨_, ⟨_, .pure _, htext ▸ h.cond hquery hcolon (operand_decimal 1) (operand_decimal 0)⟩,
      fun σ x hx => ?_⟩
    have hbit : ∀ b : Bool, (if b then some (1 : Int) else some 0) =
        some ((BitVec.ofBool b).toNat : Int) := by decide
    rw [eval_cond hx]
    exact hbit x

/-- A constant has the type of its container in front. -/
theorem operand_typed (w : Width) {literal : String} (h : Operand literal e) :
    ∃ n, w.size ≤ n ∧
      Operand ("(" ++ Ty.bitsText .parameter w.size false ++ ")" ++ literal)
        (.cast ⟨false, n⟩ e) := by
  obtain ⟨n, -, hle, hty⟩ := bitsText_scalar w.le false
  exact ⟨n, hle, operand_cast hty (.inl rfl) h⟩

theorem constant_gives (w : Width) (signed : Bool) (n : Int) (base : UInt32) (id : ExprId)
    (node : Node) :
    Gives p block (constant ⟨id, .bits w.bits signed, node⟩ n base)
      ("(" ++ Ty.bitsText .parameter w.size signed ++ ")" ++ Literal.inBase base.toNat n) := by
  show Gives p block (if 32 < w.bits.toNat then _ else _) _
  rw [if_neg (Nat.not_lt.2 w.le)]
  exact .bind (.typeText _ _) (.pure _)

theorem operand_constant (x : BitVec w.size) (base : Nat) :
    ∃ e, Operand ("(" ++ Ty.bitsText .parameter w.size false ++ ")" ++ Literal.inBase base x.toNat)
      e ∧ ∀ σ : Store, e.eval σ = some (x.toNat : Int) := by
  obtain ⟨n, hn, hop⟩ := operand_typed w (operand_inBase base x.toNat)
  refine ⟨_, hop, fun σ => ?_⟩
  have hlt : x.toNat < 2 ^ n := Nat.lt_of_lt_of_le x.isLt (Nat.pow_le_pow_right (by decide) hn)
  show some ((x.toNat : Int) % 2 ^ n) = _
  rw [Int.emod_eq_of_lt (Int.natCast_nonneg _) (by exact_mod_cast hlt)]

theorem constant_renders (x : BitVec w.size) (base : UInt32) (id : ExprId) (node : Node) :
    ∃ e, Renders p block (constant ⟨id, .bits w.bits false, node⟩ x.toNat base) e ∧
      ∀ σ : Store, e.eval σ = some (x.toNat : Int) := by
  obtain ⟨e, hop, heval⟩ := operand_constant x base.toNat
  exact ⟨e, ⟨_, constant_gives w false x.toNat base id node, hop⟩, heval⟩

/-! ### Nodes -/

variable {recur : Recur} {id i j k : ExprId} {node : Node} {a b c : Term}

theorem bufferWidth?_ty (τ : Scalar) : bufferWidth? τ.ty = none := by
  cases τ with
  | bit w => exact if_neg (by simpa using w.le)
  | bool => rfl

theorem unary_renders {op : UnaryOp} (hop : op.Means α β f)
    (h : Renders p block (recur j .value) a) :
    ∃ e, Renders p block (unary recur ⟨id, β.ty, node⟩ op j .value) e ∧
      Computes α β f a e := by
  obtain ⟨text, hg, ho⟩ := h
  obtain ⟨e, ⟨text', hg', ho'⟩, heval⟩ : ∃ e, Renders p block (unaryText β.ty op text) e ∧ _ :=
    unaryText_renders hop ho
  refine ⟨e, ⟨text', ?_, ho'⟩, heval⟩
  unfold unary
  rw [bufferWidth?_ty, ite_self]
  exact .bind hg hg'

/-- An operator on what fits scalars lowers its operands and is written with their texts. -/
theorem binary_of_narrow {env : Env} {e l r : Expr} {mode : Mode} (hl : env.At j l)
    (hr : env.At k r) (hlty : bufferWidth? l.ty = none)
    (hrty : bufferWidth? r.ty = none) (hty : bufferWidth? e.ty = none) :
    binary recur e op j k mode env = (do
      let left ← recur j mode.child
      let right ← recur k mode.child
      binaryText e.ty op left right) env := by
  unfold binary
  rw [bind_of_pure (look_of_ok hl), bind_of_pure (look_of_ok hr)]
  split
  · rw [hlty, hrty]
    rfl
  · simp only [List.filterMap_cons, hlty, hrty, hty, List.filterMap_nil]
    rfl

theorem binary_gives {ty : Ty} {l r : Expr} {s t text : String} (hl : p.At j l)
    (hr : p.At k r) (hlty : bufferWidth? l.ty = none) (hrty : bufferWidth? r.ty = none)
    (hty : bufferWidth? ty = none) (hs : Gives p block (recur j .value) s)
    (ht : Gives p block (recur k .value) t) (h : Gives p block (binaryText ty op s t) text) :
    Gives p block (binary recur ⟨id, ty, node⟩ op j k .value) text := by
  rintro env rfl rfl
  rw [binary_of_narrow hl hr hlty hrty hty]
  exact (Gives.bind hs (.bind ht h)) env rfl rfl

theorem binary_renders {γ : Scalar} {f : α.Value → β.Value → γ.Value} (hop : op.Means α β γ f)
    {l r : Expr} (hl : p.At j l) (hr : p.At k r) (hlty : l.ty = α.ty)
    (hrty : r.ty = β.ty) (ha : Renders p block (recur j .value) a)
    (hb : Renders p block (recur k .value) b) :
    ∃ e, Renders p block (binary recur ⟨id, γ.ty, node⟩ op j k .value) e ∧
      ∀ (σ : Store) (x : α.Value) (y : β.Value), a.eval σ = some (α.number x : Int) →
        b.eval σ = some (β.number y : Int) → (op = .div ∨ op = .mod → β.number y ≠ 0) →
          e.eval σ = some (γ.number (f x y) : Int) := by
  obtain ⟨s, hgs, hos⟩ := ha
  obtain ⟨t, hgt, hot⟩ := hb
  obtain ⟨e, ⟨text, hg, ho⟩, heval⟩ : ∃ e, Renders p block (binaryText γ.ty op s t) e ∧ _ :=
    binaryText_renders hop hos hot
  have hnarrow := bufferWidth?_ty
  exact ⟨e, ⟨text, binary_gives hl hr (hlty ▸ hnarrow α) (hrty ▸ hnarrow β) (hnarrow γ) hgs hgt hg,
    ho⟩, heval⟩

theorem mux_renders (hc : Renders p block (recur i .value) c)
    (ha : Renders p block (recur j .value) a) (hb : Renders p block (recur k .value) b) :
    Renders p block (mux recur i j k .value) (.cond c a b) := by
  have hquery : Symbol "?" [.one '?'] := by decide
  have hcolon : Symbol ":" [.one ':'] := by decide
  obtain ⟨q, hgq, hoq⟩ := hc
  obtain ⟨s, hgs, hos⟩ := ha
  obtain ⟨t, hgt, hot⟩ := hb
  exact ⟨_, .bind hgq (.bind hgs (.bind hgt (.pure _))), hoq.cond hquery hcolon hos hot⟩

theorem slice_renders (lo : UInt32) (h : Renders p block (recur j .value) a) :
    ∃ e, Renders p block (slice recur ⟨id, .bits v.bits false, node⟩ j lo .value) e ∧
      Computes (.bit w) (.bit v)
        (fun (x : BitVec w.size) => x.extractLsb' lo.toNat v.size) a e := by
  obtain ⟨text, hg, ho⟩ := h
  obtain ⟨e, ho', heval⟩ := operand_slice lo ho
  exact ⟨e, ⟨_, .bind hg (.bind (.pure _) (.pure _)), ho'⟩, heval⟩

theorem concat_renders {u : Width} {r : Expr} (hr : p.At k r)
    (hrty : r.ty = .bits v.bits false) (ha : Renders p block (recur j .value) a)
    (hb : Renders p block (recur k .value) b) :
    ∃ e, Renders p block (concat recur j k .value) e ∧
      ∀ (σ : Store) (x : BitVec u.size) (y : BitVec v.size), a.eval σ = some (x.toNat : Int) →
        b.eval σ = some (y.toNat : Int) → e.eval σ = some ((x ++ y).toNat : Int) := by
  obtain ⟨s, hgs, hos⟩ := ha
  obtain ⟨t, hgt, hot⟩ := hb
  obtain ⟨e, ho, heval⟩ := operand_concat hos hot
  refine ⟨e, ⟨_, .bind (.look hr) ?_, ho⟩, heval⟩
  rw [hrty]
  exact .bind hgs (.bind hgt (.pure _))

theorem cast_renders (hf : Scalar.Converts α β f) {e : Expr} (he : p.At j e)
    (hty : e.ty = α.ty) (h : Renders p block (recur j .value) a) :
    ∃ e', Renders p block (cast recur β.ty j .value) e' ∧ Computes α β f a e' := by
  obtain ⟨text, hg, ho⟩ := h
  obtain ⟨e', ⟨text', hg', ho'⟩, heval⟩ : ∃ e', Renders p block (castText α.ty β.ty text) e' ∧ _ :=
    castText_renders hf ho
  refine ⟨e', ⟨text', .bind (.look he) ?_, ho'⟩, heval⟩
  rw [hty]
  exact .bind hg hg'

end Nodes

end PacketC
