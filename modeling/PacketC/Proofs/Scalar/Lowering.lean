import PacketC.Proofs.Lower.Failure
import PacketC.Proofs.Scalar.Nodes

/-! Scalar expressions keep their value. The text of every tree is an operand, so it can stand
inside the text of any other; read with the precedence of the target and evaluated with unbounded
integers, it has the value of the tree. -/

namespace PacketC

open Code Lower

variable {p : Program} {block : Option BlockId}

theorem Renders.expr (wf : p.WellFormed) {i : ExprId} {e : Expr} (he : p.At i e) {a : Term}
    (h : Renders p block (nodeText Lower.expr e .value) a) :
    Renders p block (Lower.expr i .value) a := by
  obtain ⟨text, hg, ho⟩ := h
  exact ⟨text, .expr wf he hg, ho⟩

namespace Program.Tree

variable {i : ExprId} {τ : Scalar}

theorem exists_expr (t : p.Tree i τ) : ∃ e, p.At i e ∧ e.ty = τ.ty := by
  cases t with
  | leaf h =>
    cases h with
    | path _ h | packetField _ _ _ h | parserField _ _ _ h => exact ⟨_, h.choose_spec, rfl⟩
  | constant _ _ h | bool _ h | unary _ h | binary _ h | mux h | slice _ _ h | concat h | cast h =>
    exact ⟨_, h.choose_spec, rfl⟩

/-- The store has the assigned values where the leaves are read from. -/
def Holds (p : Program) (block : Option BlockId) (ρ : Assignment) (σ : Store)
    (leaves : List (ExprId × Scalar)) : Prop :=
  ∀ x ∈ leaves, ∀ e, Renders p block (Lower.expr x.1 .value) e →
    e.eval σ = some (x.2.number (ρ x.1 x.2) : Int)

theorem Holds.append {ρ : Assignment} {σ : Store} {xs ys : List (ExprId × Scalar)} :
    Holds p block ρ σ (xs ++ ys) ↔ Holds p block ρ σ xs ∧ Holds p block ρ σ ys :=
  List.forall_mem_append

/-- The induction over trees: every node makes an operand of the operands of its parts. -/
theorem renders (wf : p.WellFormed) (hn : p.PlainNames) (t : p.Tree i τ) :
    ∃ e, Renders p block (Lower.expr i .value) e ∧ ∀ ρ σ, t.NoZeroDivisor ρ →
      Holds p block ρ σ t.leaves → e.eval σ = some (τ.number (t.value ρ) : Int) := by
  induction t with
  | leaf h =>
    obtain ⟨place, hplain, hg⟩ : ∃ place : Place, place.Plain ∧ Gives p block _ place.text :=
      h.place wf hn
    have hr : Renders p block _ place.term := ⟨_, hg, Place.operand hplain⟩
    exact ⟨_, hr, fun ρ σ _ hl => hl _ (List.mem_singleton.2 rfl) _ hr⟩
  | constant x base h =>
    obtain ⟨id, he⟩ := h
    obtain ⟨e, hr, heval⟩ := constant_renders x base id _
    exact ⟨e, .expr wf he hr, fun ρ σ _ _ => heval σ⟩
  | bool b h =>
    obtain ⟨id, he⟩ := h
    refine ⟨_, .expr wf he ⟨_, .pure _, operand_bool b⟩, fun ρ σ _ _ => ?_⟩
    cases b <;> rfl
  | unary op h hop x ih =>
    obtain ⟨id, he⟩ := h
    obtain ⟨a, ha, hax⟩ := ih
    obtain ⟨e, hr, heval⟩ := unary_renders hop ha
    exact ⟨e, .expr wf he hr, fun ρ σ hz hl => heval σ _ (hax ρ σ hz hl)⟩
  | binary op h hop x y ihx ihy =>
    obtain ⟨id, he⟩ := h
    obtain ⟨a, ha, hax⟩ := ihx
    obtain ⟨b, hb, hby⟩ := ihy
    obtain ⟨l, hl, hlty⟩ := x.exists_expr
    obtain ⟨r, hr, hrty⟩ := y.exists_expr
    obtain ⟨e, hr, heval⟩ := binary_renders hop hl hr hlty hrty ha hb
    refine ⟨e, .expr wf he hr, fun ρ σ hz hleaves => ?_⟩
    obtain ⟨hx, hy⟩ := Holds.append.1 hleaves
    exact heval σ _ _ (hax ρ σ hz.1 hx) (hby ρ σ hz.2.1 hy) hz.2.2
  | mux h b x y ihb ihx ihy =>
    obtain ⟨id, he⟩ := h
    obtain ⟨c, hc, hcb⟩ := ihb
    obtain ⟨a, ha, hax⟩ := ihx
    obtain ⟨b', hb, hby⟩ := ihy
    refine ⟨_, .expr wf he (mux_renders hc ha hb), fun ρ σ hz hleaves => ?_⟩
    obtain ⟨hbx, hy⟩ := Holds.append.1 hleaves
    obtain ⟨hb, hx⟩ := Holds.append.1 hbx
    rw [eval_cond (hcb ρ σ hz.1 hb), hax ρ σ hz.2.1 hx, hby ρ σ hz.2.2 hy]
    show (if b.value ρ then _ else _) =
      some ((Scalar.number _ (if b.value ρ then _ else _) : Nat) : Int)
    split <;> rfl
  | slice hi lo h hlo hhi hv x ih =>
    obtain ⟨id, he⟩ := h
    obtain ⟨a, ha, hax⟩ := ih
    obtain ⟨e, hr, heval⟩ := slice_renders lo ha
    exact ⟨e, .expr wf he hr, fun ρ σ hz hl => heval σ _ (hax ρ σ hz hl)⟩
  | concat h hw x y ihx ihy =>
    obtain ⟨id, he⟩ := h
    obtain ⟨a, ha, hax⟩ := ihx
    obtain ⟨b, hb, hby⟩ := ihy
    obtain ⟨r, hr, hrty⟩ := y.exists_expr
    obtain ⟨e, hr, heval⟩ := concat_renders hr hrty ha hb
    refine ⟨e, .expr wf he hr, fun ρ σ hz hleaves => ?_⟩
    obtain ⟨hx, hy⟩ := Holds.append.1 hleaves
    rw [heval σ _ _ (hax ρ σ hz.1 hx) (hby ρ σ hz.2 hy)]
    rfl
  | cast h hf x ih =>
    obtain ⟨id, he⟩ := h
    obtain ⟨a, ha, hax⟩ := ih
    obtain ⟨e, hx, hty⟩ := x.exists_expr
    obtain ⟨e', hr, heval⟩ := cast_renders hf hx hty ha
    exact ⟨e', .expr wf he hr, fun ρ σ hz hl => heval σ _ (hax ρ σ hz hl)⟩

theorem leaf_of_mem (t : p.Tree i τ) : ∀ x ∈ t.leaves, p.Leaf x.1 x.2 := by
  induction t with
  | leaf h =>
    intro x hx
    obtain rfl := List.mem_singleton.1 hx
    exact h
  | constant | bool => nofun
  | unary _ _ _ _ ih | slice _ _ _ _ _ _ _ ih | cast _ _ _ ih => exact ih
  | binary _ _ _ _ _ ihx ihy | concat _ _ _ _ ihx ihy =>
    exact List.forall_mem_append.2 ⟨ihx, ihy⟩
  | mux _ _ _ _ ihb ihx ihy =>
    exact List.forall_mem_append.2 ⟨List.forall_mem_append.2 ⟨ihb, ihx⟩, ihy⟩

end Program.Tree

/-! ### Sessions and stores -/

namespace Program

/-- Every session writes the expression as the text, with no code around it, and stays as it was:
it has no new diagnostic and no new name. -/
def Writes (p : Program) (block : Option BlockId) (i : ExprId) (text : String) : Prop :=
  ∀ s : Session, s.lowerExpression p i block .value = (.ok ⟨.expression, [], text, []⟩, s)

variable {i : ExprId} {τ : Scalar} {text : String}

theorem writes_of_gives (h : Gives p block (Lower.expr i .value) text) : p.Writes block i text := by
  intro s
  have hrun := congrFun (h (s.env p block) rfl rfl) s.initial
  exact Session.run_of_ok hrun

theorem Writes.text_eq {text' : String} (h : p.Writes block i text) (h' : p.Writes block i text') :
    text = text' := by
  have heq := (h (.start .standard)).symm.trans (h' (.start .standard))
  injection heq with hfragment
  injection hfragment with hfragment
  injection hfragment

/-- Expressions with the numbers that they are to have. -/
abbrev Readings := List (ExprId × Int)

/-- Expressions with the same text have the same number. -/
def Readings.Coherent (p : Program) (block : Option BlockId) (rs : Readings) : Prop :=
  ∀ x ∈ rs, ∀ y ∈ rs, ∀ text, p.Writes block x.1 text → p.Writes block y.1 text → x.2 = y.2

/-- The text of each expression has its number. -/
def Readings.Agrees (p : Program) (block : Option BlockId) (σ : Store) (rs : Readings) : Prop :=
  ∀ x ∈ rs, ∀ text, p.Writes block x.1 text → evaluate σ text = some x.2

open Classical in
/-- What is read from places can be stored there. -/
theorem Readings.Coherent.exists_agrees {rs : Readings} (h : rs.Coherent p block)
    (hplace : ∀ x ∈ rs, ∃ place : Place, place.Plain ∧
      Gives p block (Lower.expr x.1 .value) place.text) : ∃ σ, rs.Agrees p block σ := by
  let At (e : Term) (x : ExprId × Int) : Prop :=
    x ∈ rs ∧ ∃ place : Place, place.term = e ∧ p.Writes block x.1 place.text
  let σ : Store := fun e => if h : ∃ x, At e x then some h.choose.2 else none
  refine ⟨σ, fun x hx text hw => ?_⟩
  obtain ⟨place, hplain, hg⟩ := hplace x hx
  have hwrites := writes_of_gives hg
  have hat : ∃ x, At place.term x := ⟨x, hx, place, rfl, hwrites⟩
  -- what the store took its number from is read from the same place
  obtain ⟨hmem, place', hterm, hw'⟩ := hat.choose_spec
  rw [Place.term_injective hterm] at hw'
  rw [hw.text_eq hwrites, (Place.operand hplain).evaluate_eq, Place.eval_term hplain]
  show dite _ _ _ = _
  rw [dif_pos hat, h _ hmem x hx _ hw' hwrites]

namespace Tree

/-- Leaves with the same text have the same value. -/
def Coherent (block : Option BlockId) (ρ : Assignment) (t : p.Tree i τ) : Prop :=
  ∀ x ∈ t.leaves, ∀ y ∈ t.leaves, ∀ text, p.Writes block x.1 text → p.Writes block y.1 text →
    x.2.number (ρ x.1 x.2) = y.2.number (ρ y.1 y.2)

/-- The text of each leaf has the value of the leaf. -/
def Agrees (block : Option BlockId) (ρ : Assignment) (σ : Store) (t : p.Tree i τ) : Prop :=
  ∀ x ∈ t.leaves, ∀ text, p.Writes block x.1 text →
    evaluate σ text = some (x.2.number (ρ x.1 x.2) : Int)

theorem Agrees.holds {ρ : Assignment} {σ : Store} {t : p.Tree i τ} (h : t.Agrees block ρ σ) :
    Holds p block ρ σ t.leaves := by
  rintro x hx e ⟨text, hg, ho⟩
  rw [← h x hx text (writes_of_gives hg), ho.evaluate_eq]

/-- Values that fit together can be stored. -/
theorem Coherent.exists_agrees (wf : p.WellFormed) (hn : p.PlainNames) {ρ : Assignment}
    {t : p.Tree i τ} (h : t.Coherent block ρ) : ∃ σ, t.Agrees block ρ σ := by
  let rs : Readings := t.leaves.map fun x => (x.1, (x.2.number (ρ x.1 x.2) : Int))
  have hc : rs.Coherent p block := by
    refine List.forall_mem_map.2 fun x hx => List.forall_mem_map.2 fun y hy text hwx hwy => ?_
    exact congrArg Nat.cast (h x hx y hy text hwx hwy)
  obtain ⟨σ, hσ⟩ := hc.exists_agrees <|
    List.forall_mem_map.2 fun x hx => (t.leaf_of_mem x hx).place wf hn
  exact ⟨σ, List.forall_mem_map.1 hσ⟩

/-- A tree is written as one text in every session. Whatever the leaves hold, as long as leaves with
the same text hold the same and no divisor is zero, some store has these values at the leaves, and
in each such store the text has the value of the tree. -/
theorem lowering_preserves_value (hv : p.validate = .ok ()) (hn : p.PlainNames)
    (block : Option BlockId) (t : p.Tree i τ) :
    ∃ text, p.Writes block i text ∧
      ∀ ρ : Assignment, t.Coherent block ρ → t.NoZeroDivisor ρ →
        (∃ σ, t.Agrees block ρ σ) ∧
        ∀ σ, t.Agrees block ρ σ → evaluate σ text = some (τ.number (t.value ρ) : Int) := by
  have wf := WellFormed.of_validate hv
  obtain ⟨e, ⟨text, hg, ho⟩, heval⟩ : ∃ e, Renders p block _ e ∧ _ := t.renders wf hn
  refine ⟨text, writes_of_gives hg, fun ρ hc hz => ⟨hc.exists_agrees wf hn, fun σ hσ => ?_⟩⟩
  rw [ho.evaluate_eq, heval ρ σ hz hσ.holds]

end Tree

end Program

namespace Lower

def byte : Width := ⟨8, by decide, by decide⟩

/-- The tree of the last expression. -/
def clampedSumTree : clampedSum.Tree ⟨4⟩ (.bit byte) :=
  let a := .leaf (.path ⟨"a", none, false⟩ ⟨⟨0⟩, rfl⟩)
  let c := .constant (200 : BitVec 8) 10 ⟨⟨1⟩, rfl⟩
  let sum := .binary .add ⟨⟨2⟩, rfl⟩ (.add byte) a c
  .mux ⟨⟨4⟩, rfl⟩ (.binary .lss ⟨⟨3⟩, rfl⟩ (.lss byte) sum a) c sum

theorem clampedSum_plainNames : clampedSum.PlainNames := by
  constructor <;> simp [clampedSum]
  decide

/-- Every number is 100. -/
def hundred : Program.Assignment
  | _, .bit w => BitVec.ofNat w.size 100
  | _, .bool => true

theorem clampedSum_value : ∃ text, clampedSum.Writes none ⟨4⟩ text ∧
    ∃ σ, clampedSumTree.Agrees none hundred σ ∧ evaluate σ text = some 200 := by
  have hc : clampedSumTree.Coherent none hundred := by
    have hleaves : ∀ x ∈ clampedSumTree.leaves, x = (⟨0⟩, .bit byte) := by
      simp [clampedSumTree, Program.Tree.leaves]
    intro x hx y hy _ _ _
    rw [hleaves x hx, hleaves y hy]
  have hz : clampedSumTree.NoZeroDivisor hundred := by
    simp [clampedSumTree, Program.Tree.NoZeroDivisor]
  have hvalue : Scalar.number _ (clampedSumTree.value hundred) = 200 := by decide +kernel
  obtain ⟨text, hw, h⟩ :=
    clampedSumTree.lowering_preserves_value rfl clampedSum_plainNames none
  obtain ⟨⟨σ, hσ⟩, heval⟩ := h hundred hc hz
  refine ⟨text, hw, σ, hσ, ?_⟩
  rw [heval σ hσ, hvalue]
  rfl

end Lower

end PacketC
