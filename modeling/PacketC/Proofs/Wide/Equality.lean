import PacketC.Proofs.Scalar.Nodes
import PacketC.Proofs.Wide.Leaves

/-! Comparisons of bit strings above 32 bits, inside conditions. A comparison is written without
parentheses around it. That does no harm beside `&&` and `||`, in a conditional, and on the left of
`==` and `!=`; under `!` and on the right of `==` and `!=` the text is read as something else. A
condition without such a place has the truth value that it should have. -/

namespace PacketC

open Code Lower

/-! ### Conditions -/

/-- What a comparison says of two things that are the same or not. -/
def BinaryOp.verdict (op : BinaryOp) (same : Bool) : Bool := if op = .neq then !same else same

namespace Program

/-- A width above 32 bits, of which the bytes can be counted with 32 bits. -/
structure WideWidth (w : UInt32) : Prop where
  wide : 32 < w.toNat
  fits : w.toNat + 7 < UInt32.size

/-- A bit string above 32 bits that is compared. -/
inductive Wide (p : Program) (w : UInt32) (i : ExprId) : Type
  | path (x : Path) (h : p.Is i (.bits w false) (.path x))
  | field (f : p.FieldAt i (.bits w false))
  | constant (c : BitVec w.toNat) (base : UInt32)
      (h : p.Is i (.bits w false) (.constant c.toNat base))

inductive Condition (p : Program) : ExprId → Type
  | path {i : ExprId} (x : Path) (h : p.Is i .bool (.path x)) : Condition p i
  | bool {i : ExprId} (b : Bool) (h : p.Is i .bool (.bool b)) : Condition p i
  | compare {i j k : ExprId} {w : UInt32} (op : BinaryOp) (hop : op.isEquality = true)
      (h : p.Is i .bool (.binary op j k)) (hw : WideWidth w) (l : p.Wide w j) (r : p.Wide w k) :
      Condition p i
  | not {i j : ExprId} (h : p.Is i .bool (.unary .lnot j)) (x : Condition p j) : Condition p i
  | both {i j k : ExprId} (h : p.Is i .bool (.binary .land j k)) (x : Condition p j)
      (y : Condition p k) : Condition p i
  | either {i j k : ExprId} (h : p.Is i .bool (.binary .lor j k)) (x : Condition p j)
      (y : Condition p k) : Condition p i
  | same {i j k : ExprId} (op : BinaryOp) (hop : op.isEquality = true)
      (h : p.Is i .bool (.binary op j k)) (x : Condition p j) (y : Condition p k) : Condition p i
  | mux {i c j k : ExprId} (h : p.Is i .bool (.mux c j k)) (b : Condition p c) (x : Condition p j)
      (y : Condition p k) : Condition p i

/-- What the leaves of a condition hold. -/
structure Values where
  truth : ExprId → Bool
  bits : ExprId → (w : UInt32) → BitVec w.toNat

variable {p : Program}

namespace Wide

variable {w : UInt32} {i : ExprId}

def value (v : Values) : p.Wide w i → BitVec w.toNat
  | .path _ _ | .field _ => v.bits i w
  | .constant c _ _ => c

/-- The names of the target that the operand is read through. -/
def mentions (block : Option BlockId) : p.Wide w i → List String
  | .path x _ => [x.root p block]
  | .field f => [f.place.headerId, f.place.fieldId]
  | .constant .. => []

def contents : p.Wide w i → List Content
  | .path .. => []
  | .field f => [.field (byteCount w.toNat) f.place]
  | .constant c _ _ => [constantContent c.toNat w.toNat]

/-- Where the operand is read from, there are the bytes of its value. -/
def Agrees (block : Option BlockId) (rt : Runtime) (v : Values) (o : p.Wide w i) : Prop :=
  match o with
  | .path x _ => Encodes (rt.buffer (x.place p block).term) (byteCount w.toNat) (v.bits i w).toNat
  | .field f =>
    Encodes (rt.bytes f.place.headerId f.place.fieldId) (byteCount w.toNat) (v.bits i w).toNat
  | .constant .. => True

end Wide

namespace Condition

variable {i : ExprId}

def value (v : Values) : {i : ExprId} → p.Condition i → Bool
  | i, .path _ _ => v.truth i
  | _, .bool b _ => b
  | _, .compare op _ _ _ l r => op.verdict (l.value v == r.value v)
  | _, .not _ x => !x.value v
  | _, .both _ x y => x.value v && y.value v
  | _, .either _ x y => x.value v || y.value v
  | _, .same op _ _ x y => op.verdict (x.value v == y.value v)
  | _, .mux _ b x y => if b.value v then x.value v else y.value v

def isComparison : {i : ExprId} → p.Condition i → Bool
  | _, .compare .. => true
  | _, _ => false

/-- No comparison stands where its text would be read in parts. -/
def Sheltered : {i : ExprId} → p.Condition i → Prop
  | _, .path .. | _, .bool .. | _, .compare .. => True
  | _, .not _ x => x.isComparison = false ∧ x.Sheltered
  | _, .both _ x y | _, .either _ x y => x.Sheltered ∧ y.Sheltered
  | _, .same _ _ _ x y => x.Sheltered ∧ y.isComparison = false ∧ y.Sheltered
  | _, .mux _ b x y => b.Sheltered ∧ x.Sheltered ∧ y.Sheltered

def paths : {i : ExprId} → p.Condition i → List (ExprId × Path)
  | i, .path x _ => [(i, x)]
  | _, .bool .. | _, .compare .. => []
  | _, .not _ x => x.paths
  | _, .both _ x y | _, .either _ x y | _, .same _ _ _ x y => x.paths ++ y.paths
  | _, .mux _ b x y => b.paths ++ (x.paths ++ y.paths)

def operands : {i : ExprId} → p.Condition i → List (Σ (w : UInt32) (i : ExprId), p.Wide w i)
  | _, .path .. | _, .bool .. => []
  | _, .compare _ _ _ _ l r => [⟨_, _, l⟩, ⟨_, _, r⟩]
  | _, .not _ x => x.operands
  | _, .both _ x y | _, .either _ x y | _, .same _ _ _ x y => x.operands ++ y.operands
  | _, .mux _ b x y => b.operands ++ (x.operands ++ y.operands)

/-- The names of the target that the condition is read through. -/
def mentions (block : Option BlockId) (t : p.Condition i) : List String :=
  t.paths.map (fun x => x.2.root p block) ++ t.operands.flatMap fun o => o.2.2.mentions block

def contents (t : p.Condition i) : List Content := t.operands.flatMap fun o => o.2.2.contents

/-- The runtime holds the values of the leaves. -/
structure Agrees (block : Option BlockId) (rt : Runtime) (v : Values) (t : p.Condition i) :
    Prop where
  paths : ∀ x ∈ t.paths,
    rt.scalar (x.2.place p block).term = some ((v.truth x.1).toNat : Int)
  operands : ∀ o ∈ t.operands, o.2.2.Agrees block rt v

end Condition

end Program

/-! ### Operands -/

section Operands

variable {p : Program} {block : Option BlockId} {w : UInt32} {i : ExprId}

open Program

theorem Program.Wide.exists_expr (o : p.Wide w i) :
    ∃ e, p.At i e ∧ e.ty = .bits w false := by
  cases o with
  | path _ h | constant _ _ h => exact ⟨_, h.choose_spec, rfl⟩
  | field f => exact ⟨_, f.isMember.choose_spec, rfl⟩

/-- The text of an operand is a buffer with the bytes of its value. -/
def Program.Wide.Written (block : Option BlockId) (o : p.Wide w i) (text : String)
    (hs : List Hoisted) :
    Prop :=
  ∃ e, Operand text e ∧ ∀ rt v m, Hoisted.Holds rt hs m →
    (∀ y ∈ o.mentions block, m.isFree y = true) → o.Agrees block rt v →
      Encodes (m.buffer rt e) (byteCount w.toNat) (o.value v).toNat

/-- What is declared belongs to the contents, and constants have the declarations they have. -/
def conditionPlan (p : Program) (contents : List Content) (h : ∀ c ∈ contents, c.Plain) : Plan where
  allowed k := Identifier k.name ∧ k.content ∈ contents
  assigned := ConstantOf p
  plain _ hk := h _ hk.2
  identifier _ hk := hk.1
  unique := ConstantOf.unique

theorem Program.Wide.plain_contents (hn : p.PlainNames) (o : p.Wide w i) :
    ∀ c ∈ o.contents, c.Plain := by
  cases o with
  | path => nofun
  | field f =>
    intro c hc
    obtain rfl := List.mem_singleton.1 hc
    exact f.labels hn
  | constant c =>
    intro c hc
    obtain rfl := List.mem_singleton.1 hc
    exact plain_constantContent _ _

/-- What is declared for an operand reads only what the operand is read through, and finds it. -/
theorem Program.Wide.contents_spec (block : Option BlockId) {o : p.Wide w i} {c : Content}
    (hc : c ∈ o.contents) :
    c.mentions ⊆ o.mentions block ∧
      ∀ rt v, o.Agrees block rt v → ∃ slot, c.slot rt = some slot := by
  cases o with
  | path => cases hc
  | field f =>
    obtain rfl := List.mem_singleton.1 hc
    refine ⟨fun _ h => h, fun rt v hag => ?_⟩
    obtain ⟨bs, hbs, hlen, -⟩ := hag
    exact ⟨.bytes bs, by simp [Content.slot, hbs, hlen]⟩
  | constant c =>
    obtain rfl := List.mem_singleton.1 hc
    exact ⟨List.nil_subset _, fun _ _ _ => ⟨_, rfl⟩⟩

theorem Program.Wide.lays {env : Env} {loud : Bool} (wf : env.program.WellFormed)
    (hn : env.program.PlainNames) (hw : WideWidth w) {contents : List Content}
    (hplain : ∀ c ∈ contents, c.Plain) (o : env.program.Wide w i) (hsub : o.contents ⊆ contents) :
    Lays (conditionPlan env.program contents hplain).ledger env loud (Lower.expr i .value)
      (o.Written env.block) := by
  cases o with
  | path x h =>
    refine (lays_path wf h).mono ?_
    rintro _ hs rfl
    obtain ⟨id, he⟩ := h
    have hx : Identifier x.name := hn.paths _ (Program.mem_of_expr he) x rfl
    refine ⟨_, Place.operand (x.plain_place hx), fun rt v m _ hfree hag => ?_⟩
    rw [(x.read_place (hfree _ (List.mem_singleton.2 rfl)) rt).2]
    exact hag
  | field f =>
    have hmem := hsub (List.mem_singleton.2 rfl)
    have hok : ∀ n, (conditionPlan env.program contents hplain).allowed
        ⟨NameSupply.numbered (f.place.header ++ "_" ++ f.place.field) n,
          .field (byteCount w.toNat) f.place⟩ := fun n => ⟨(f.isStem_name hn).identifier n, hmem⟩
    refine (lays_field wf f hw.wide hok).mono ?_
    rintro x hs ⟨hx, hx'⟩
    refine ⟨_, hx.label.operand, fun rt v m hholds _ hag => ?_⟩
    obtain ⟨bs, hbs, hlen, hvalue⟩ := hag
    have hslot : (Content.field (byteCount w.toNat) f.place).slot rt = some (.bytes bs) := by
      simp [Content.slot, hbs, hlen]
    exact ⟨bs, buffer_of_holds hholds hx' hslot, hlen, hvalue⟩
  | constant c base h =>
    have hmem := hsub (List.mem_singleton.2 rfl)
    have hok : ∀ x, Identifier x → (conditionPlan env.program contents hplain).allowed
        ⟨x, constantContent c.toNat w.toNat⟩ := fun x hx => ⟨hx, hmem⟩
    refine (lays_constant wf h hw.wide hok fun h => h).mono ?_
    rintro x hs ⟨hx, hx'⟩
    refine ⟨_, hx.label.operand, fun rt v m hholds _ _ => ?_⟩
    obtain ⟨bs, hbs, hlen, hvalue⟩ := encodes_bytes (lt_pow_byteCount hw.fits c.isLt)
    cases hbs
    exact ⟨_, buffer_of_holds hholds hx' rfl, hlen, hvalue⟩

end Operands

/-! ### Comparisons -/

section Comparisons

variable {op : BinaryOp}

theorem prec_target (h : op.isEquality = true) : op.target.prec = 6 := by
  cases op <;> first | rfl | cases h

theorem symbol_spaced (op : BinaryOp) : Symbol (" " ++ op.symbol ++ " ") [op.target.token] := by
  cases op <;> decide

/-- A comparison is read as one next to operators that bind less tightly. -/
theorem clause_zero (hop : op.isEquality = true) {call : String} {e : Term} (h : Operand call e) :
    Clause 6 ("0" ++ (" " ++ op.symbol ++ " ") ++ call) (.binary op.target (.num 0) e) := by
  have hzero : Operand "0" (.num 0) := operand_decimal 0
  have hclause := Clause.apply (symbol_spaced op)
    (hzero.clause (by rw [prec_target hop]; decide)) (h.clause (by rw [prec_target hop]; decide))
  rwa [prec_target hop] at hclause

theorem compare_text (op : BinaryOp) (l r : String) (n : Nat) :
    s!"0 {op.symbol} memcmp({l}, {r}, {n})" =
      "0" ++ (" " ++ op.symbol ++ " ") ++ s!"memcmp({l}, {r}, {n})" := by
  have hzero : "0 " = "0" ++ " " := rfl
  have hcall : " memcmp(" = " " ++ "memcmp(" := rfl
  show "0 " ++ op.symbol ++ " memcmp(" ++ l ++ ", " ++ r ++ ", " ++ toString n ++ ")" =
    "0" ++ (" " ++ op.symbol ++ " ") ++
      ("memcmp(" ++ l ++ ", " ++ r ++ ", " ++ toString n ++ ")")
  rw [hzero, hcall]
  simp only [String.append_assoc]

theorem clause_compare (hop : op.isEquality = true) {l r : String} {a b : Term} (hl : Operand l a)
    (hr : Operand r b) (n : Nat) :
    Clause 6 s!"0 {op.symbol} memcmp({l}, {r}, {n})"
      (.binary op.target (.num 0) (.call "memcmp" [a, b, .num n])) := by
  rw [compare_text]
  exact clause_zero hop (operand_memcmp hl hr n)

/-- What a comparison with zero says of things that differ unless it holds. -/
theorem apply_target_zero (hop : op.isEquality = true) {v : Int} {same : Bool}
    (h : v = 0 ↔ same = true) : op.target.apply 0 v = some ((op.verdict same).toNat : Int) := by
  have hzero : (0 = v) ↔ same = true := eq_comm.trans h
  cases op with
  | equ =>
    show some (truth (0 = v)) = _
    cases same <;> simp_all [truth, BinaryOp.verdict]
  | neq =>
    show some (truth (0 ≠ v)) = _
    cases same <;> simp_all [truth, BinaryOp.verdict]
  | _ => cases hop

theorem eval_compare (hop : op.isEquality = true) {rt : Runtime} {m : Machine} {a b : Term}
    {len x y : Nat} (ha : Encodes (m.buffer rt a) len x) (hb : Encodes (m.buffer rt b) len y) :
    (Term.binary op.target (.num 0) (.call "memcmp" [a, b, .num len])).eval (m.store rt) =
      some ((op.verdict (decide (x = y))).toNat : Int) := by
  obtain ⟨v, hcall, hzero⟩ := eval_memcmp ha hb
  rw [Term.eval_binary rfl hcall]
  refine apply_target_zero hop ?_
  rw [hzero, decide_eq_true_iff]

end Comparisons

/-! ### Nodes of conditions -/

section Nodes

variable {env : Env} {recur : Recur} {id i j k : ExprId} {node : Node} {op : BinaryOp} {l r : Expr}

theorem binaryText_plain {ty : Ty} (hop : op.isWidthSensitive = false) (a b : String) :
    binaryText ty op a b = (return s!"({appliedText a op b})" : LowerM String) := by
  unfold binaryText
  rw [hop]
  rfl

theorem isWidthSensitive_of_isEquality (hop : op.isEquality = true) :
    op.isWidthSensitive = false := by
  cases op <;> first | rfl | cases hop

/-- An operator between truth values. -/
theorem binary_bool (hl : env.At j l) (hr : env.At k r)
    (hlty : l.ty = .bool) (hrty : r.ty = .bool) (hop : op.isWidthSensitive = false) :
    binary recur ⟨id, .bool, node⟩ op j k .value env = (do
      let a ← recur j .value
      let b ← recur k .value
      return s!"({appliedText a op b})" : LowerM String) env := by
  unfold binary
  rw [bind_of_pure (look_of_ok hl), bind_of_pure (look_of_ok hr), hlty, hrty]
  simp only [binaryText_plain hop]
  split
  · rfl
  · rfl

/-- A comparison of bit strings above 32 bits. -/
theorem binary_wide {w : UInt32} (hw : 32 < w.toNat) (hl : env.At j l)
    (hr : env.At k r) (hlty : l.ty = .bits w false) (hop : op.isEquality = true) :
    binary recur ⟨id, .bool, node⟩ op j k .value env = (do
      let a ← recur j .value
      let b ← recur k .value
      return s!"0 {op.symbol} memcmp({a}, {b}, {byteCount w.toNat})" : LowerM String) env := by
  have hwidth : bufferWidth? (.bits w false) = some w.toNat := by
    simp [bufferWidth?, Ty.width, hw]
  unfold binary
  rw [bind_of_pure (look_of_ok hl), bind_of_pure (look_of_ok hr), hlty, if_pos hop, hwidth]
  rfl

/-- An operator between truth values, as the target computes it. -/
theorem apply_target_bool (x y : Bool) :
    BinaryOp.land.target.apply x.toNat y.toNat = some ((x && y).toNat : Int) ∧
      BinaryOp.lor.target.apply x.toNat y.toNat = some ((x || y).toNat : Int) ∧
      ∀ op : BinaryOp, op.isEquality = true →
        op.target.apply x.toNat y.toNat = some ((op.verdict (x == y)).toNat : Int) := by
  refine ⟨by revert x y; decide, by revert x y; decide, fun op hop => ?_⟩
  cases op with
  | equ => revert x y; decide
  | neq => revert x y; decide
  | _ => cases hop

end Nodes

/-! ### Whole conditions -/

namespace Program

variable {p : Program} {block : Option BlockId} {rt : Runtime} {v : Values} {m : Machine}

/-- The leaves can be read, and have their values. -/
structure Sees (p : Program) (block : Option BlockId) (rt : Runtime) (v : Values) (m : Machine)
    (paths : List (ExprId × Path)) (operands : List (Σ (w : UInt32) (i : ExprId), p.Wide w i)) :
    Prop where
  paths : ∀ x ∈ paths, m.isFree (x.2.root p block) = true ∧
    rt.scalar (x.2.place p block).term = some ((v.truth x.1).toNat : Int)
  operands : ∀ o ∈ operands, (∀ y ∈ o.2.2.mentions block, m.isFree y = true) ∧
    o.2.2.Agrees block rt v

theorem sees_append {a b : List (ExprId × Path)}
    {c d : List (Σ (w : UInt32) (i : ExprId), p.Wide w i)} :
    Sees p block rt v m (a ++ b) (c ++ d) ↔ Sees p block rt v m a c ∧ Sees p block rt v m b d := by
  constructor
  · rintro ⟨hp, ho⟩
    rw [List.forall_mem_append] at hp ho
    exact ⟨⟨hp.1, ho.1⟩, ⟨hp.2, ho.2⟩⟩
  · rintro ⟨h, k⟩
    exact ⟨List.forall_mem_append.2 ⟨h.paths, k.paths⟩,
      List.forall_mem_append.2 ⟨h.operands, k.operands⟩⟩

namespace Condition

variable {i j k : ExprId}

theorem exists_expr (t : p.Condition i) : ∃ e, p.At i e ∧ e.ty = .bool := by
  cases t with
  | path _ h | bool _ h | compare _ _ h | not h | both h | either h | same _ _ h | mux h =>
    exact ⟨_, h.choose_spec, rfl⟩

/-- How tightly the text of a condition binds. -/
def level (t : p.Condition i) : Nat := if t.isComparison then 6 else 11

theorem six_le_level (t : p.Condition i) : 6 ≤ t.level := by
  unfold level
  split <;> decide

variable {t : p.Condition i}

theorem level_eq (h : t.isComparison = false) : t.level = 11 := by
  simp [level, h]

/-- The text of a condition is read as a term with the truth value of the condition. -/
def Written (block : Option BlockId) (t : p.Condition i) (text : String) (hs : List Hoisted) :
    Prop :=
  ∃ e, Clause t.level text e ∧ ∀ rt v m, Hoisted.Holds rt hs m →
    Sees p block rt v m t.paths t.operands → e.eval (m.store rt) = some ((t.value v).toNat : Int)

theorem Written.operand {text : String} {hs : List Hoisted} (h : t.Written block text hs)
    (ht : t.isComparison = false) :
    ∃ e, Operand text e ∧ ∀ rt v m, Hoisted.Holds rt hs m →
      Sees p block rt v m t.paths t.operands →
        e.eval (m.store rt) = some ((t.value v).toNat : Int) := by
  obtain ⟨e, hclause, heval⟩ := h
  rw [level_eq ht] at hclause
  exact ⟨e, ⟨hclause.toSolid, hclause.spells⟩, heval⟩

/-- An operator between conditions, where each of them binds tightly enough. -/
theorem Written.binary {x : p.Condition j} {y : p.Condition k} {a b : String} {hs : List Hoisted}
    (hx : x.Written block a hs) (hy : y.Written block b hs) (op : BinaryOp)
    (hl : op.target.prec ≤ x.level) (hr : op.target.prec + 1 ≤ y.level) :
    ∃ e, Clause 11 ("(" ++ appliedText a op b ++ ")") e ∧ ∀ rt v m, Hoisted.Holds rt hs m →
      Sees p block rt v m (x.paths ++ y.paths) (x.operands ++ y.operands) →
        e.eval (m.store rt) = op.target.apply (x.value v).toNat (y.value v).toNat := by
  obtain ⟨e, he, hex⟩ := hx
  obtain ⟨e', he', hey⟩ := hy
  have hclause := Clause.apply op.symbol_target (he.mono hl) (he'.mono hr)
  refine ⟨_, hclause.paren.clause (Nat.le_refl _), fun rt v m hh hsees => ?_⟩
  obtain ⟨hsx, hsy⟩ := sees_append.1 hsees
  rw [Term.eval_binary (hex rt v m hh hsx) (hey rt v m hh hsy)]

theorem contents_append {a b : List (Σ (w : UInt32) (i : ExprId), p.Wide w i)}
    {contents : List Content}
    (h : ((a ++ b).flatMap fun o => o.2.2.contents) ⊆ contents) :
    (a.flatMap fun o => o.2.2.contents) ⊆ contents ∧
      (b.flatMap fun o => o.2.2.contents) ⊆ contents := by
  rw [List.flatMap_append] at h
  exact List.append_subset.1 h

/-- Two conditions with an operator between them. -/
theorem lays_binary {env : Env} {plan : Plan} (wf : env.program.WellFormed) {op : BinaryOp}
    (h : env.program.Is i .bool (.binary op j k)) {x : env.program.Condition j}
    {y : env.program.Condition k} (hop : op.isWidthSensitive = false)
    (hx : Lays plan.ledger env false (Lower.expr j .value) (x.Written env.block))
    (hy : Lays plan.ledger env false (Lower.expr k .value) (y.Written env.block)) :
    Lays plan.ledger env false (Lower.expr i .value) fun text hs => ∃ a b,
      text = "(" ++ appliedText a op b ++ ")" ∧ x.Written env.block a hs ∧
        y.Written env.block b hs := by
  obtain ⟨id, he⟩ := h
  obtain ⟨l, hl, hlty⟩ := x.exists_expr
  obtain ⟨r, hr, hrty⟩ := y.exists_expr
  refine .expr wf he (.inEnv (binary_bool hl hr hlty hrty hop) ?_)
  exact .bind hx fun a => .bind hy fun b => .pure fun _ hb ha => ⟨a, b, rfl, ha, hb⟩

/-- The induction over conditions: each node keeps its parts apart from what stands around them. -/
theorem lays (env : Env) (wf : env.program.WellFormed) (hn : env.program.PlainNames)
    {contents : List Content} (hplain : ∀ c ∈ contents, c.Plain) (t : env.program.Condition i)
    (ht : t.Sheltered) (hsub : t.contents ⊆ contents) :
    Lays (conditionPlan env.program contents hplain).ledger env false (Lower.expr i .value)
      (t.Written env.block) := by
  induction t with
  | path x h =>
    refine (lays_path wf h).mono ?_
    rintro _ hs rfl
    obtain ⟨id, he⟩ := h
    have hx : Identifier x.name := hn.paths _ (Program.mem_of_expr he) x rfl
    refine ⟨_, (Place.operand (x.plain_place hx)).clause (Nat.le_refl _),
      fun rt v m _ hsees => ?_⟩
    obtain ⟨hfree, hvalue⟩ := hsees.paths _ (List.mem_singleton.2 rfl)
    rw [Place.eval_term (x.plain_place hx), (x.read_place hfree rt).1, hvalue]
    rfl
  | bool b h =>
    obtain ⟨id, he⟩ := h
    refine .expr wf he (.pure fun hs => ⟨_, (operand_bool b).clause (Nat.le_refl _), ?_⟩)
    intro rt v m _ _
    cases b <;> rfl
  | compare op hop h hw l r =>
    obtain ⟨id, he⟩ := h
    obtain ⟨hl, hr⟩ : l.contents ⊆ contents ∧ r.contents ⊆ contents := by
      simpa [Condition.contents, operands, List.append_subset] using hsub
    obtain ⟨a, ha, haty⟩ := l.exists_expr
    obtain ⟨b, hb, -⟩ := r.exists_expr
    refine .expr wf he (.inEnv (binary_wide hw.wide ha hb haty hop) ?_)
    refine .bind (l.lays wf hn hw hplain hl) fun a => .bind (r.lays wf hn hw hplain hr) fun b =>
      .pure ?_
    rintro hs ⟨e', hob, heb⟩ ⟨e, hoa, hea⟩
    refine ⟨_, clause_compare hop hoa hob _, fun rt v m hh hsees => ?_⟩
    obtain ⟨hfree, hag⟩ := hsees.operands ⟨_, _, l⟩ (by simp [operands])
    obtain ⟨hfree', hag'⟩ := hsees.operands ⟨_, _, r⟩ (by simp [operands])
    rw [eval_compare hop (hea rt v m hh hfree hag) (heb rt v m hh hfree' hag')]
    simp only [Condition.value, BitVec.toNat_inj, Bool.beq_eq_decide_eq]
  | not h x ih =>
    obtain ⟨id, he⟩ := h
    have hnot : Symbol "(!" [.one '(', UnOp.not.token] := by decide
    refine .expr wf he (.bind (ih ht.2 hsub) fun a => .pure fun hs ha => ?_)
    obtain ⟨e, ho, heval⟩ := ha.operand ht.1
    refine ⟨_, (ho.unary hnot (by decide)).clause (Nat.le_refl _), fun rt v m hh hsees => ?_⟩
    rw [Term.eval, heval rt v m hh hsees]
    show some (UnOp.not.apply _) = some (((!x.value v).toNat : Nat) : Int)
    cases x.value v <;> rfl
  | both h x y ihx ihy =>
    obtain ⟨hcx, hcy⟩ := contents_append hsub
    refine (lays_binary wf h rfl (ihx ht.1 hcx) (ihy ht.2 hcy)).mono ?_
    rintro _ hs ⟨a, b, rfl, ha, hb⟩
    obtain ⟨e, hclause, heval⟩ := ha.binary hb .land
      ((by decide : 2 ≤ 6).trans x.six_le_level) ((by decide : 3 ≤ 6).trans y.six_le_level)
    exact ⟨e, hclause, fun rt v m hh hsees =>
      (heval rt v m hh hsees).trans (apply_target_bool _ _).1⟩
  | either h x y ihx ihy =>
    obtain ⟨hcx, hcy⟩ := contents_append hsub
    refine (lays_binary wf h rfl (ihx ht.1 hcx) (ihy ht.2 hcy)).mono ?_
    rintro _ hs ⟨a, b, rfl, ha, hb⟩
    obtain ⟨e, hclause, heval⟩ := ha.binary hb .lor
      ((by decide : 1 ≤ 6).trans x.six_le_level) ((by decide : 2 ≤ 6).trans y.six_le_level)
    exact ⟨e, hclause, fun rt v m hh hsees =>
      (heval rt v m hh hsees).trans (apply_target_bool _ _).2.1⟩
  | same op hop h x y ihx ihy =>
    obtain ⟨hcx, hcy⟩ := contents_append hsub
    refine (lays_binary wf h (isWidthSensitive_of_isEquality hop) (ihx ht.1 hcx)
      (ihy ht.2.2 hcy)).mono ?_
    rintro _ hs ⟨a, b, rfl, ha, hb⟩
    -- the right operand would be read in parts if it bound no tighter than the operator
    have hright : op.target.prec + 1 ≤ y.level := by
      rw [prec_target hop, level_eq ht.2.1]
      decide
    obtain ⟨e, hclause, heval⟩ :=
      ha.binary hb op (by rw [prec_target hop]; exact x.six_le_level) hright
    exact ⟨e, hclause, fun rt v m hh hsees =>
      (heval rt v m hh hsees).trans ((apply_target_bool _ _).2.2 op hop)⟩
  | mux h b x y ihb ihx ihy =>
    obtain ⟨id, he⟩ := h
    obtain ⟨hcb, hcxy⟩ := contents_append hsub
    obtain ⟨hcx, hcy⟩ := contents_append hcxy
    have hquery : Symbol "?" [.one '?'] := by decide
    have hcolon : Symbol ":" [.one ':'] := by decide
    refine .expr wf he (.bind (ihb ht.1 hcb) fun c => .bind (ihx ht.2.1 hcx) fun a =>
      .bind (ihy ht.2.2 hcy) fun b' => .pure ?_)
    rintro hs ⟨eb, hob, heb⟩ ⟨ea, hoa, hea⟩ ⟨ec, hoc, hec⟩
    have hcond := Clause.cond hquery hcolon (hoc.mono ((by decide : 1 ≤ 6).trans b.six_le_level))
      (hoa.mono (Nat.zero_le _)) (hob.mono (Nat.zero_le _))
    refine ⟨_, hcond.clause (Nat.le_refl _), fun rt v m hh hsees => ?_⟩
    obtain ⟨hsb, hsxy⟩ := sees_append.1 hsees
    obtain ⟨hsx, hsy⟩ := sees_append.1 hsxy
    rw [eval_cond (hec rt v m hh hsb), hea rt v m hh hsx, heb rt v m hh hsy]
    show (if b.value v then _ else _) =
      some (((if b.value v then _ else _ : Bool).toNat : Nat) : Int)
    split <;> rfl

theorem plain_contents (hn : p.PlainNames) (t : p.Condition i) : ∀ c ∈ t.contents, c.Plain := by
  intro c hc
  obtain ⟨o, ho, hc⟩ := List.mem_flatMap.1 hc
  exact o.2.2.plain_contents hn c hc

theorem contents_spec (block : Option BlockId) {c : Content} (hc : c ∈ t.contents) :
    c.mentions ⊆ t.mentions block ∧
      ∀ rt v, t.Agrees block rt v → ∃ slot, c.slot rt = some slot := by
  obtain ⟨o, ho, hc⟩ := List.mem_flatMap.1 hc
  obtain ⟨hsub, hslot⟩ := Wide.contents_spec block hc
  refine ⟨fun y hy => List.mem_append_right _ ?_, fun rt v hag => hslot rt v (hag.operands o ho)⟩
  exact List.mem_flatMap.2 ⟨o, ho, hsub hy⟩

theorem sees_of_agrees (h : t.Agrees block rt v)
    (hfree : ∀ y ∈ t.mentions block, m.isFree y = true) :
    Sees p block rt v m t.paths t.operands where
  paths x hx := ⟨hfree _ (List.mem_append_left _ (List.mem_map_of_mem hx)), h.paths x hx⟩
  operands o ho := ⟨fun y hy =>
    hfree y (List.mem_append_right _ (List.mem_flatMap.2 ⟨o, ho, hy⟩)), h.operands o ho⟩

end Condition

end Program

namespace Session

open Program

variable {p : Program} {s : Session} {i : ExprId}

/-- Where no comparison stands under `!` or on the right of `==` or `!=`, a condition is lowered
without a diagnostic, and once the code in front of it has run, its text has its truth value. The
code must not declare a name that the condition is read through. -/
theorem wide_equality_composes (hv : p.validate = .ok ()) (hn : p.PlainNames) (hs : s.Reachable)
    (block : Option BlockId) (t : p.Condition i) (ht : t.Sheltered) :
    ∃ f s', s.lowerExpression p i block .value = (.ok f, s') ∧ s'.diagnostics = s.diagnostics ∧
      f.post = [] ∧ ∀ rt v, t.Agrees block rt v →
        (∀ piece ∈ f.pre, ∀ x ∈ declaredBy piece, x ∉ t.mentions block) →
          ((runPieces rt .start f.pre).bind fun m => evaluate (m.store rt) f.text) =
            some ((t.value v).toNat : Int) := by
  have wf := WellFormed.of_validate hv
  have hlays := Condition.lays (s.env p block) wf hn (t.plain_contents hn) t ht fun _ h => h
  obtain ⟨text, state, hs, ds, hrun, hlaid, hds, hquiet, hwritten⟩ :=
    hlays.run_session rfl (Laid.start hs.sound) rfl
  obtain rfl := hquiet rfl
  rw [List.append_nil] at hds
  refine ⟨_, _, hrun, hds, rfl, fun rt v hag hapart => ?_⟩
  have hunread : ∀ y ∈ t.mentions block, y ∉ hs.map Hoisted.name := by
    intro y hy hmem
    obtain ⟨piece, hpiece, hdeclared⟩ := hlaid.declared_of_mem hmem
    exact hapart piece hpiece y hdeclared hy
  have hcontent : ∀ k ∈ hs, k.content ∈ t.contents := fun k hk => (hlaid.allowed k hk).2
  obtain ⟨m, hm, -, hholds, hfree⟩ := hlaid.run
    (fun k hk => (Condition.contents_spec block (hcontent k hk)).2 rt v hag)
    fun k hk y hy => hunread y ((Condition.contents_spec block (hcontent k hk)).1 hy)
  obtain ⟨e, hclause, heval⟩ := hwritten rfl
  rw [hm, Option.bind_some, hclause.evaluate_eq]
  exact heval rt v m hholds (Condition.sees_of_agrees hag fun y hy => hfree y (hunread y hy))

/-- A field of 48 bits is compared with a constant; the comparison is negated by itself and within
a conjunction. -/
def wideGuard : Program where
  exprs := #[.packet, .packetHeader, .packetField 2 (.bits 48 false) "f" 0,
    ⟨⟨3⟩, .bits 48 false, .constant 1 16⟩, .binary 4 .bool .equ 2 3, .free 5 .bool "b",
    .binary 6 .bool .land 4 5, ⟨⟨7⟩, .bool, .unary .lnot ⟨6⟩⟩, ⟨⟨8⟩, .bool, .unary .lnot ⟨4⟩⟩]
  typeDecls := #[⟨"t", .header [⟨"f", .bits 48 false⟩]⟩]
  headers := #[⟨"h", ⟨0⟩, false⟩]

namespace wideGuard

def comparison : wideGuard.Condition ⟨4⟩ :=
  .compare .equ rfl ⟨⟨4⟩, rfl⟩ ⟨by decide, by decide⟩
    (.field ⟨_, ⟨⟨0⟩, 0⟩, _, _, ⟨⟨2⟩, rfl⟩, rfl, rfl, rfl, rfl⟩) (.constant 1 16 ⟨⟨3⟩, rfl⟩)

def negated : wideGuard.Condition ⟨8⟩ := .not ⟨⟨8⟩, rfl⟩ comparison

def negatedBoth : wideGuard.Condition ⟨7⟩ :=
  .not ⟨⟨7⟩, rfl⟩ (.both ⟨⟨6⟩, rfl⟩ comparison (.path ⟨"b", none, false⟩ ⟨⟨5⟩, rfl⟩))

/-- Each field holds the bytes, and each scalar the number. -/
def runtime (bytes : List UInt8) (v : Int) : Runtime :=
  .byDifference (fun _ _ => none) (fun _ _ => some bytes) (fun _ => some v) fun _ => none

theorem plainNames : wideGuard.PlainNames := by
  constructor <;> simp [wideGuard, TypeDecl.fields] <;> decide

end wideGuard

/-- The conjunction is in parentheses, so its negation is right. -/
theorem wideGuard_both_negated : ∃ f s',
    (start .standard).lowerExpression wideGuard ⟨7⟩ none .value = (.ok f, s') ∧
    f.text = "(!(0 == memcmp(h_f_1, const_0x000000000001_3, 6)&&b))" ∧
    ((runPieces (wideGuard.runtime [0, 0, 0, 0, 0, 1] 1) .start f.pre).bind fun m =>
      evaluate (m.store (wideGuard.runtime [0, 0, 0, 0, 0, 1] 1)) f.text) = some 0 := by
  let v : Values := ⟨fun _ => true, fun _ w => 1⟩
  have hag : wideGuard.negatedBoth.Agrees none (wideGuard.runtime [0, 0, 0, 0, 0, 1] 1) v := by
    refine ⟨fun x hx => rfl, fun o ho => ?_⟩
    rcases List.mem_cons.1 ho with rfl | ho
    · exact ⟨_, rfl, rfl, by decide⟩
    · rw [List.mem_singleton.1 ho]
      trivial
  obtain ⟨f, s', h, -, -, heval⟩ := wide_equality_composes rfl wideGuard.plainNames
    (.start .standard) none wideGuard.negatedBoth ⟨rfl, trivial, trivial⟩
  obtain ⟨g, t', hg, hpre, htext⟩ : ∃ g t',
      (start .standard).lowerExpression wideGuard ⟨7⟩ none .value = (.ok g, t') ∧
      g.pre = ["uint8_t h_f_1[6];\n" ++
          "EXTRACT_BYTEBUF_PACKET(pd, header_instance_h, field_t_f, h_f_1);",
        "uint8_t const_0x000000000001_3[] = \x7b0x00, 0x00, 0x00, 0x00, 0x00, 0x01\x7d;"] ∧
      g.text = "(!(0 == memcmp(h_f_1, const_0x000000000001_3, 6)&&b))" := ⟨_, _, rfl, rfl, rfl⟩
  cases h.symm.trans hg
  refine ⟨f, s', h, htext, (heval _ v hag ?_).trans rfl⟩
  rw [hpre]
  decide +kernel

/-- A comparison that is negated by itself is read as a comparison of `!0`: the field is not the
constant, but the text of the negation is false. -/
theorem wideGuard_comparison_misread : ∃ f s' v,
    (start .standard).lowerExpression wideGuard ⟨8⟩ none .value = (.ok f, s') ∧
    s'.diagnostics = [] ∧ f.text = "(!0 == memcmp(h_f_1, const_0x000000000001_3, 6))" ∧
    wideGuard.negated.Agrees none (wideGuard.runtime [0, 0, 0, 0, 0, 0] 1) v ∧
    wideGuard.negated.value v = true ∧
    ((runPieces (wideGuard.runtime [0, 0, 0, 0, 0, 0] 1) .start f.pre).bind fun m =>
      evaluate (m.store (wideGuard.runtime [0, 0, 0, 0, 0, 0] 1)) f.text) = some 0 := by
  refine ⟨_, _, ⟨fun _ => true, fun _ w => 0⟩, rfl, rfl, rfl, ⟨nofun, fun o ho => ?_⟩, rfl, ?_⟩
  · rcases List.mem_cons.1 ho with rfl | ho
    · exact ⟨_, rfl, rfl, by decide⟩
    · rw [List.mem_singleton.1 ho]
      trivial
  · decide +kernel

end Session

end PacketC
