import PacketC.Proofs.Scalar.Lowering
import PacketC.Proofs.Signed.Formula

/-! Formulas with signs and their texts. The text of a supported formula has the number that the
target computes for it; what has no form in the target is reported. So a text has the value of its
formula exactly where the number is in range, and for guarded formulas it always has. -/

namespace PacketC

open Code Lower

variable {p : Program} {block : Option BlockId}

/-! ### Masks and casts -/

theorem ldiff_mask (w m : Nat) : Nat.ldiff (2 ^ w - 1) m = 2 ^ w - 1 - m % 2 ^ w := by
  refine Nat.eq_of_testBit_eq fun i => ?_
  rw [Nat.testBit_ldiff, Nat.testBit_two_pow_sub_one, Nat.sub_sub, Nat.add_comm 1,
    Nat.testBit_two_pow_sub_succ (Nat.mod_lt _ (Nat.two_pow_pos w)), Nat.testBit_mod_two_pow]
  cases decide (i < w) <;> simp

/-- A mask takes any integer, negative or not, to its remainder. -/
theorem eval_mask {σ : Store} {e : Term} (w : Nat) {n : Int} (h : e.eval σ = some n) :
    (Term.binary .band (.num (2 ^ w - 1)) e).eval σ = some (n % 2 ^ w) := by
  rw [Term.eval_binary rfl h]
  cases n with
  | ofNat m => exact (band_mask w m).trans (congrArg some (Int.natCast_emod m (2 ^ w)))
  | negSucc m =>
    have hpos : (0 : Int) < 2 ^ w := Int.pow_pos (by decide)
    have hlt := Nat.mod_lt m (Nat.two_pow_pos w)
    show some ((Nat.ldiff (2 ^ w - 1) m : Nat) : Int) = _
    rw [ldiff_mask, Int.negSucc_emod m hpos, Nat.sub_sub, Int.ofNat_sub (by omega)]
    push_cast
    congr 1
    omega

/-- A constant has the type of its container in front; a negative one has its sign behind that. -/
theorem operand_literal (w : Width) (signed : Bool) (base : Nat) (n : Int) :
    ∃ e, Operand ("(" ++ Ty.bitsText .parameter w.size signed ++ ")" ++ Literal.inBase base n)
        (.cast ⟨signed, w.container⟩ e) ∧ ∀ σ : Store, e.eval σ = some n := by
  have hty := (bitsText_container w signed).2
  cases n with
  | ofNat m => exact ⟨_, operand_cast hty (.inl rfl) (operand_inBase base m), fun _ => rfl⟩
  | negSucc m =>
    have htext : Literal.inBase base (.negSucc m) = "-" ++ Literal.digits 10 (m + 1) := by
      simp [Literal.inBase, Literal.decimal]
    rw [htext]
    exact ⟨_, operand_cast_neg hty (operand_decimal (m + 1)), fun _ => rfl⟩

/-! ### Texts of nodes -/

section Nodes

variable {a b : Term} {inner l r : String}

theorem negText_renders (signed : Bool) (w : Width) (h : Operand inner a) :
    ∃ e, Renders p block (unaryText (.bits w.bits signed) .neg inner) e ∧
      ∀ (σ : Store) (n : Int), a.eval σ = some n → e.eval σ = some (negated signed w n) := by
  cases signed with
  | true =>
    have hneg : Symbol "(-" [.one '(', UnOp.neg.token] := by decide
    refine ⟨_, ⟨_, .pure _, h.unary hneg (by decide)⟩, fun σ n hn => ?_⟩
    rw [Term.eval, hn]
    rfl
  | false =>
    have hminus : Symbol "-" [Op.sub.token] := by decide
    have hinner := (operand_decimal (2 ^ w.size)).binary hminus h
    refine ⟨_, ⟨_, .bind (.pure _) (.pure _), operand_masked w.size hinner⟩, fun σ n hn => ?_⟩
    have hsub : (Term.binary .sub (.num (2 ^ w.size)) a).eval σ = some (2 ^ w.size + -n) := by
      rw [Term.eval_binary rfl hn, ← Int.sub_eq_add_neg]
      rfl
    rw [eval_mask w.size hsub, Int.add_emod_left]
    rfl

theorem RingOp.apply_target (o : RingOp) (m n : Int) :
    o.op.target.apply m n = some (o.apply m n) := by
  cases o <;> rfl

/-- A cast to the scalar of a signed type, in parentheses. -/
theorem operand_scalar (v : Width) {close : String} (hclose : close = ")" ∨ close = ") ")
    (h : Operand inner a) :
    Operand ("((" ++ Ty.bitsText .parameter v.size true ++ close ++ inner ++ ")")
      (.cast ⟨true, v.container⟩ a) := by
  have hopen : "((" = "(" ++ "(" := rfl
  have htext : "((" ++ Ty.bitsText .parameter v.size true ++ close ++ inner ++ ")" =
      "(" ++ ("(" ++ Ty.bitsText .parameter v.size true ++ close ++ inner) ++ ")" := by
    rw [hopen]
    simp only [String.append_assoc]
  rw [htext]
  exact (operand_cast (bitsText_container v true).2 hclose h).paren

theorem signedRingText_renders {w : Width} (hw : isScalarWidth w.size = true) (o : RingOp)
    (hl : Operand l a) (hr : Operand r b) :
    ∃ e, Renders p block (binaryText (.bits w.bits true) o.op l r) e ∧
      ∀ (σ : Store) (m n : Int), a.eval σ = some m → b.eval σ = some n →
        e.eval σ = some (IntType.wrap ⟨true, w.size⟩ (o.apply m n)) := by
  have hop := operand_scalar w (.inr rfl) (operand_applied o.op hl hr)
  have htext : "((" ++ Ty.bitsText .parameter w.size true ++ ") " ++
      ("(" ++ appliedText l o.op r ++ ")") ++ ")" =
      "((" ++ Ty.bitsText .parameter w.size true ++ ") (" ++ appliedText l o.op r ++ "))" := by
    simp [← String.toList_inj]
  rw [htext] at hop
  have hgives : Gives p block (binaryText (.bits w.bits true) o.op l r)
      ("((" ++ Ty.bitsText .parameter w.size true ++ ") (" ++ appliedText l o.op r ++ "))") := by
    cases o with
    | add | sub | mul =>
      show Gives p block (if isScalarWidth w.size = true then _ else _) _
      rw [if_pos hw]
      exact .bind (.typeText _ _) (.pure _)
  refine ⟨_, ⟨_, hgives, hop⟩, fun σ m n hm hn => ?_⟩
  rw [Term.eval, Term.eval_binary hm hn, o.apply_target, container_of_isScalarWidth hw]
  rfl

theorem unsignedRingText_renders (w : Width) (o : RingOp) (hl : Operand l a) (hr : Operand r b) :
    ∃ e, Renders p block (binaryText (.bits w.bits false) o.op l r) e ∧
      ∀ (σ : Store) (m n : Int), a.eval σ = some m → b.eval σ = some n →
        e.eval σ = some (IntType.wrap ⟨false, w.size⟩ (o.apply m n)) := by
  cases o with
  | add | mul =>
    refine ⟨_, ⟨_, .bind (.pure _) (.pure _), operand_masked w.size (operand_applied _ hl hr)⟩,
      fun σ m n hm hn => ?_⟩
    exact eval_mask w.size (Term.eval_binary hm hn)
  | sub =>
    refine ⟨_, ⟨_, .bind (.pure _) (.pure _), operand_masked w.size (operand_sub w.size hl hr)⟩,
      fun σ m n hm hn => ?_⟩
    have heval : (Term.binary .add a (.binary .sub (.num (2 ^ w.size)) b)).eval σ =
        some (m + (2 ^ w.size - n)) := Term.eval_binary hm (Term.eval_binary rfl hn)
    have hshift : m + (2 ^ w.size - n) = m - n + 2 ^ w.size := by omega
    rw [eval_mask w.size heval, hshift, Int.add_emod_right]
    rfl

variable {s : Bool}

theorem ringText_renders {w : Width} (hw : s = true → isScalarWidth w.size = true) (o : RingOp)
    (hl : Operand l a) (hr : Operand r b) :
    ∃ e, Renders p block (binaryText (.bits w.bits s) o.op l r) e ∧
      ∀ (σ : Store) (m n : Int), a.eval σ = some m → b.eval σ = some n →
        e.eval σ = some (IntType.wrap ⟨s, w.size⟩ (o.apply m n)) := by
  cases s with
  | true => exact signedRingText_renders (hw rfl) o hl hr
  | false => exact unsignedRingText_renders w o hl hr

theorem compareText_renders (o : CompareOp) (hl : Operand l a) (hr : Operand r b) :
    ∃ e, Renders p block (binaryText .bool o.op l r) e ∧
      ∀ (σ : Store) (m n : Int), a.eval σ = some m → b.eval σ = some n →
        e.eval σ = some ((o.holds m n).toNat : Int) := by
  have hgives : Gives p block (binaryText .bool o.op l r) ("(" ++ appliedText l o.op r ++ ")") := by
    cases o <;> exact .pure _
  refine ⟨_, ⟨_, hgives, operand_applied o.op hl hr⟩, fun σ m n hm hn => ?_⟩
  rw [Term.eval_binary hm hn]
  cases o <;> exact congrArg some (truth_eq _)

theorem resizedText_gives (w v : Width) (hv : s = false → isScalarWidth v.size = true)
    (inner : String) :
    ∃ close, (close = ")" ∨ close = ") ") ∧
      Gives p block (castText (.bits w.bits s) (.bits v.bits true) inner)
        ("((" ++ Ty.bitsText .parameter v.size true ++ close ++ inner ++ ")") := by
  cases s with
  | true =>
    refine ⟨_, .inr rfl, ?_⟩
    simp only [castText]
    exact .bind (.typeText _ _) (.pure _)
  | false =>
    refine ⟨_, .inl rfl, ?_⟩
    simp only [castText, if_pos (hv rfl)]
    exact .bind (.typeText _ _) (.pure _)

theorem resizedText_renders {s' : Bool} (w v : Width) (hs : (s || s') = true)
    (hv : s = false → isScalarWidth v.size = true) (h : Operand inner a) :
    ∃ e, Renders p block (castText (.bits w.bits s) (.bits v.bits s') inner) e ∧
      ∀ (σ : Store) (n : Int), a.eval σ = some n → e.eval σ = some (resized s' v n) := by
  cases s' with
  | true =>
    obtain ⟨close, hclose, hgives⟩ := resizedText_gives w v hv inner
    refine ⟨_, ⟨_, hgives, operand_scalar v hclose h⟩, fun σ n hn => ?_⟩
    rw [Term.eval, hn]
    rfl
  | false =>
    obtain rfl : s = true := by simpa using hs
    have hgives : Gives p block (castText (.bits w.bits true) (.bits v.bits false) inner)
        (masked (Literal.mask v.size ++ "&") inner) := by
      simp only [castText]
      exact .bind (.pure _) (.pure _)
    exact ⟨_, ⟨_, hgives, operand_masked v.size h⟩, fun σ n hn => eval_mask v.size hn⟩

end Nodes

/-! ### Formulas -/

theorem bufferWidth?_quantity (q : Quantity) : bufferWidth? q.ty = none := by
  cases q with
  | num s w => exact if_neg (by simpa using w.le)
  | bool => rfl

theorem unary_of_narrow {recur : Recur} {e : Expr} {op : UnaryOp} {j : ExprId} {mode : Mode}
    (h : bufferWidth? e.ty = none) :
    unary recur e op j mode = (do unaryText e.ty op (← recur j mode.child)) := by
  unfold unary
  rw [h, ite_self]

/-- The terms of the expressions have their numbers. -/
def Program.Readings.Holds (p : Program) (block : Option BlockId) (σ : Store)
    (rs : Program.Readings) : Prop :=
  ∀ x ∈ rs, ∀ e, Renders p block (Lower.expr x.1 .value) e → e.eval σ = some x.2

theorem Program.Readings.Agrees.holds {σ : Store} {rs : Program.Readings}
    (h : rs.Agrees p block σ) : rs.Holds p block σ := by
  rintro x hx e ⟨text, hg, ho⟩
  rw [← h x hx text (writes_of_gives hg), ho.evaluate_eq]

variable {env : Env} {x : LowerM String}

/-- The action does not fail and loses no diagnostic. Where `P` holds, it puts an error on
record. -/
def Lower.Settles (env : Env) (P : Prop) (x : LowerM String) : Prop :=
  ∀ s, ∃ text t, x env s = (.ok text, t) ∧ s.memory.Keeps t.memory ∧
    (P → s.memory.Gains .error t.memory)

namespace Lower.Settles

variable {P Q : Prop}

theorem of_env {y : LowerM String} (h : x env = y env) (hy : Settles env P y) :
    Settles env P x := by
  rwa [Settles, h]

theorem mono (h : Settles env P x) (hQP : Q → P) : Settles env Q x := by
  intro s
  obtain ⟨text, t, hrun, hkeeps, hgains⟩ := h s
  exact ⟨text, t, hrun, hkeeps, fun hQ => hgains (hQP hQ)⟩

theorem bind {f : String → LowerM String} (hx : Settles env P x)
    (hf : ∀ text, Settles env Q (f text)) : Settles env (P ∨ Q) (x >>= f) := by
  intro s
  obtain ⟨text, t, hrun, hkeeps, hgains⟩ := hx s
  obtain ⟨text', u, hrun', hkeeps', hgains'⟩ := hf text t
  refine ⟨text', u, by rw [run_bind, hrun]; exact hrun', hkeeps.trans hkeeps', ?_⟩
  rintro (hP | hQ)
  · exact (hgains hP).and_keeps hkeeps'
  · exact hkeeps.and_gains (hgains' hQ)

theorem of_gives {text : String} (h : Gives env.program env.block x text) (hP : ¬P) :
    Settles env P x :=
  of_env (h env rfl rfl) fun s => ⟨text, s, rfl, .refl _, fun h => (hP h).elim⟩

/-- What enters no expression and raises no error settles. -/
theorem of_inStep (h : ∀ L, InStep env env L Lower.expr Lower.expr x x)
    (hP : P → Reports env .error x) : Settles env P x := by
  intro s
  have hkeeps := InStep.keeping (h .any) s
  rcases hrun : x env s with ⟨err | text, t⟩
  · exact ((h ⟨fun _ => False, fun _ => False, True, fun _ => False, False, False⟩).error_of_run
      (P := fun _ => False) (fun _ h => h.elim) (fun _ h => h) s err t hrun).elim
  · rw [hrun] at hkeeps
    exact ⟨text, t, rfl, hkeeps, fun h => hP h s text t hrun⟩

end Lower.Settles

namespace Program.Formula

variable {i : ExprId} {q : Quantity}

theorem exists_expr (t : p.Formula i q) : ∃ e, p.At i e ∧ e.ty = q.ty := by
  cases t with
  | leaf h => exact h.exists_expr
  | constant _ _ h | neg h | arith _ h | compare _ h | cast h => exact ⟨_, h.choose_spec, rfl⟩

/-- The leaves with their numbers. -/
def readings (ρ : Valuation) : {i : ExprId} → {q : Quantity} → p.Formula i q → Readings
  | i, .num s w, .leaf _ => [(i, (Quantity.num s w).number (ρ i (.num s w)))]
  | _, _, .constant .. => []
  | _, _, .neg _ x | _, _, .cast _ _ x => x.readings ρ
  | _, _, .arith _ _ x y | _, _, .compare _ _ _ x y => x.readings ρ ++ y.readings ρ

/-- An operator on formulas is written as an operand where its text is one. -/
theorem binary_renders_by {j k id : ExprId} {node : Node} {op : BinaryOp} {q₁ q₂ : Quantity}
    {a b : Term} {P : Term → Prop} (x : p.Formula j q₁) (y : p.Formula k q₂)
    (ha : Renders p block (Lower.expr j .value) a) (hb : Renders p block (Lower.expr k .value) b)
    (h : ∀ l r, Operand l a → Operand r b → ∃ e, Renders p block (binaryText q.ty op l r) e ∧ P e) :
    ∃ e, Renders p block (binary Lower.expr ⟨id, q.ty, node⟩ op j k .value) e ∧ P e := by
  obtain ⟨l, hgl, hol⟩ := ha
  obtain ⟨r, hgr, hor⟩ := hb
  obtain ⟨e, ⟨text, hg, ho⟩, hP⟩ := h l r hol hor
  obtain ⟨ex, hx, htx⟩ := x.exists_expr
  obtain ⟨ey, hy, hty⟩ := y.exists_expr
  have hnarrow := bufferWidth?_quantity
  exact ⟨e, ⟨text, binary_gives hx hy (htx ▸ hnarrow q₁) (hty ▸ hnarrow q₂) (hnarrow q) hgl hgr hg,
    ho⟩, hP⟩

theorem place_of_mem (wf : p.WellFormed) (hn : p.PlainNames) (ρ : Valuation) (t : p.Formula i q) :
    ∀ x ∈ t.readings ρ, ∃ place : Place, place.Plain ∧
      Gives p block (Lower.expr x.1 .value) place.text := by
  induction t with
  | @leaf i s w h =>
    intro x hx
    obtain rfl := List.mem_singleton.1 hx
    exact h.place wf hn w.le
  | constant => nofun
  | neg _ _ ih | cast _ _ _ ih => exact ih
  | arith _ _ _ _ ihx ihy | compare _ _ _ _ _ ihx ihy => exact List.forall_mem_append.2 ⟨ihx, ihy⟩

/-- The induction over formulas: every node makes an operand of the operands of its parts. -/
theorem renders (wf : p.WellFormed) (hn : p.PlainNames) (t : p.Formula i q) (hs : t.Supported) :
    ∃ e, Renders p block (Lower.expr i .value) e ∧
      ∀ ρ σ, (t.readings ρ).Holds p block σ → e.eval σ = some (t.computed ρ) := by
  induction t with
  | @leaf i s w h =>
    obtain ⟨place, hplain, hg⟩ : ∃ place : Place, place.Plain ∧ Gives p block _ place.text :=
      h.place wf hn w.le
    have hr : Renders p block _ place.term := ⟨_, hg, Place.operand hplain⟩
    exact ⟨_, hr, fun ρ σ hl => hl _ (List.mem_singleton.2 rfl) _ hr⟩
  | @constant i s w x base h =>
    obtain ⟨id, he⟩ := h
    obtain ⟨e, ho, heval⟩ := operand_literal w s base.toNat ((Quantity.num s w).number x)
    refine ⟨_, .expr wf he ⟨_, constant_gives w s _ base id _, ho⟩, fun ρ σ _ => ?_⟩
    rw [Term.eval, heval]
    have hrange := (Quantity.num s w).inRange_number x
    exact congrArg some (wrap_of_inRange (bitsText_container w s).1 hrange)
  | @neg i j s w h x ih =>
    obtain ⟨id, he⟩ := h
    obtain ⟨a, ⟨text, hg, ho⟩, heval⟩ := ih hs
    obtain ⟨e, ⟨text', hg', ho'⟩, heval'⟩ : ∃ e,
        Renders p block (unaryText (.bits w.bits s) .neg text) e ∧ _ := negText_renders s w ho
    refine ⟨e, .expr wf he ⟨text', ?_, ho'⟩, fun ρ σ hl => heval' σ _ (heval ρ σ hl)⟩
    show Gives p block (unary Lower.expr _ .neg j .value) text'
    rw [unary_of_narrow (bufferWidth?_quantity (.num s w))]
    exact .bind hg hg'
  | @arith i j k s w o h x y ihx ihy =>
    obtain ⟨id, he⟩ := h
    obtain ⟨a, ha, hax⟩ := ihx hs.1
    obtain ⟨b, hb, hby⟩ := ihy hs.2.1
    obtain ⟨e, hr, heval⟩ := x.binary_renders_by y (q := .num s w) ha hb fun _ _ hl hr =>
      ringText_renders hs.2.2 o hl hr
    refine ⟨e, .expr wf he hr, fun ρ σ hrs => ?_⟩
    obtain ⟨hx, hy⟩ := List.forall_mem_append.1 hrs
    exact heval σ _ _ (hax ρ σ hx) (hby ρ σ hy)
  | @compare i j k q o h ho x y ihx ihy =>
    obtain ⟨id, he⟩ := h
    obtain ⟨a, ha, hax⟩ := ihx hs.1
    obtain ⟨b, hb, hby⟩ := ihy hs.2
    obtain ⟨e, hr, heval⟩ := x.binary_renders_by y (q := .bool) ha hb fun _ _ hl hr =>
      compareText_renders o hl hr
    refine ⟨e, .expr wf he hr, fun ρ σ hrs => ?_⟩
    obtain ⟨hx, hy⟩ := List.forall_mem_append.1 hrs
    exact heval σ _ _ (hax ρ σ hx) (hby ρ σ hy)
  | @cast i j s s' w v h hsign x ih =>
    obtain ⟨id, he⟩ := h
    obtain ⟨a, ⟨text, hg, ho⟩, heval⟩ := ih hs.1
    obtain ⟨f, hf, hty⟩ := x.exists_expr
    obtain ⟨e, ⟨text', hg', ho'⟩, heval'⟩ : ∃ e,
        Renders p block (castText (.bits w.bits s) (.bits v.bits s') text) e ∧ _ :=
      resizedText_renders w v hsign hs.2 ho
    refine ⟨e, .expr wf he ⟨text', .bind (.look hf) ?_, ho'⟩,
      fun ρ σ hl => heval' σ _ (heval ρ σ hl)⟩
    rw [hty]
    exact .bind hg hg'

/-! ### Reports -/

variable {env : Env}

theorem binary_run {j k id : ExprId} {node : Node} {op : BinaryOp} {q₁ q₂ : Quantity}
    (x : env.program.Formula j q₁) (y : env.program.Formula k q₂) :
    binary Lower.expr ⟨id, q.ty, node⟩ op j k .value env = (do
      let l ← Lower.expr j .value
      let r ← Lower.expr k .value
      binaryText q.ty op l r : LowerM String) env := by
  obtain ⟨ex, hx, htx⟩ := x.exists_expr
  obtain ⟨ey, hy, hty⟩ := y.exists_expr
  have hnarrow := bufferWidth?_quantity
  exact binary_of_narrow hx hy (htx ▸ hnarrow q₁) (hty ▸ hnarrow q₂) (hnarrow q)

/-- Every formula is lowered, and what is not supported is reported, whatever stands around it. -/
theorem settles (env : Env) (wf : env.program.WellFormed) (hn : env.program.PlainNames)
    (t : env.program.Formula i q) : Settles env (¬t.Supported) (Lower.expr i .value) := by
  induction t with
  | @leaf i s w h =>
    obtain ⟨place, -, hg⟩ : ∃ place : Place, place.Plain ∧
      Gives env.program env.block _ place.text := h.place wf hn w.le
    exact .of_gives hg (absurd trivial)
  | @constant i s w x base h =>
    obtain ⟨id, he⟩ := h
    exact .of_env (expr_eq_nodeText wf he .value)
      (.of_gives (constant_gives w s _ base id _) (absurd trivial))
  | @neg i j s w h x ih =>
    obtain ⟨id, he⟩ := h
    refine .of_env (expr_eq_nodeText wf he .value) ?_
    show Settles env _ (unary Lower.expr _ .neg j .value)
    rw [unary_of_narrow (bufferWidth?_quantity (.num s w))]
    exact (ih.bind fun _ => .of_inStep (fun _ => unaryText_inStep _ _ _) False.elim).mono .inl
  | @arith i j k s w o h x y ihx ihy =>
    obtain ⟨id, he⟩ := h
    refine .of_env ((expr_eq_nodeText wf he .value).trans (x.binary_run y (q := .num s w))) ?_
    have htext : ∀ l r, Settles env (s = true ∧ isScalarWidth w.size = false)
        (binaryText (Quantity.num s w).ty o.op l r) := by
      refine fun l r => .of_inStep (fun _ => binaryText_inStep (fun _ => rfl) _ _ _) ?_
      rintro ⟨rfl, hw⟩
      have hop : o.op.isWidthSensitive = true ∧ o.op ≠ .shr := by cases o <;> decide
      exact binaryText_reports _ _ hop.1 (.signed rfl hop.2 hw)
    refine (ihx.bind fun _ => ihy.bind fun _ => htext _ _).mono fun hs => ?_
    simpa only [Supported, not_and_or, Classical.not_imp, Bool.not_eq_true] using hs
  | @compare i j k q o h ho x y ihx ihy =>
    obtain ⟨id, he⟩ := h
    refine .of_env ((expr_eq_nodeText wf he .value).trans (x.binary_run y (q := .bool))) ?_
    refine (ihx.bind fun _ => ihy.bind fun _ =>
      .of_inStep (fun _ => binaryText_inStep (fun _ => rfl) _ _ _) False.elim).mono fun hs => ?_
    simpa only [Supported, not_and_or, or_false] using hs
  | @cast i j s s' w v h hsign x ih =>
    obtain ⟨id, he⟩ := h
    obtain ⟨f, hf, hty⟩ := x.exists_expr
    refine .of_env (expr_eq_nodeText wf he .value) (.of_env (bind_of_pure (look_of_ok hf)) ?_)
    rw [hty]
    have htext : ∀ inner, Settles env (s = false ∧ isScalarWidth v.size = false)
        (castText (Quantity.num s w).ty (Quantity.num s' v).ty inner) := by
      refine fun inner => .of_inStep (fun _ => castText_inStep _ (fun _ => rfl) _) ?_
      rintro ⟨rfl, hv⟩
      obtain rfl : s' = true := by simpa using hsign
      exact castText_reports _ (by simpa only [Quantity.ty, Ty.castable] using hv)
    refine (ih.bind fun _ => htext _).mono fun hs => ?_
    simpa only [Supported, not_and_or, Classical.not_imp, Bool.not_eq_true] using hs

/-! ### Sessions -/

/-- A formula that is not supported is lowered with an error on record. Any other is written as one
text in every session, with nothing on record. Whatever the leaves hold, as long as leaves with the
same text hold the same, some store has these values at the leaves, and in each such store the text
has the number that the target computes. If what is compared or widened is in range, that is the
value of the formula exactly where it is in range itself; and it is the value of every guarded
formula. -/
theorem exact_iff_in_range (hv : p.validate = .ok ()) (hn : p.PlainNames) (block : Option BlockId)
    (t : p.Formula i q) :
    (¬t.Supported → ∀ s : Session, ∃ fragment s',
      s.lowerExpression p i block .value = (.ok fragment, s') ∧
        Memory.Gains .error s.memory s'.memory) ∧
    (t.Supported → ∃ text, p.Writes block i text ∧
      ∀ ρ : Valuation, (t.readings ρ).Coherent p block →
        (∃ σ, (t.readings ρ).Agrees p block σ) ∧
        ∀ σ, (t.readings ρ).Agrees p block σ →
          evaluate σ text = some (t.computed ρ) ∧
          (t.Sound ρ →
            (evaluate σ text = some (q.number (t.value ρ)) ↔ q.InRange (t.computed ρ))) ∧
          (t.Guarded → evaluate σ text = some (q.number (t.value ρ)))) := by
  have wf := WellFormed.of_validate hv
  refine ⟨fun hs s => ?_, fun hs => ?_⟩
  · let env : Env := s.env p block
    obtain ⟨text, u, hrun, -, hgains⟩ := settles env wf hn t s.initial
    exact ⟨_, _, Session.run_of_ok hrun, hgains hs⟩
  · obtain ⟨e, ⟨text, hg, ho⟩, heval⟩ : ∃ e, Renders p block _ e ∧ _ := t.renders wf hn hs
    refine ⟨text, writes_of_gives hg, fun ρ hc =>
      ⟨hc.exists_agrees (t.place_of_mem wf hn ρ), fun σ hσ => ?_⟩⟩
    have hvalue : evaluate σ text = some (t.computed ρ) := by
      rw [ho.evaluate_eq, heval ρ σ hσ.holds]
    rw [hvalue, Option.some_inj]
    refine ⟨rfl, fun hs => Option.some_inj.trans (t.computed_eq_iff ρ hs), fun hg => ?_⟩
    obtain ⟨hsound, hrange⟩ := hg.inRange ρ hs
    exact congrArg some ((t.computed_eq_iff ρ hsound).2 hrange)

end Program.Formula

namespace Lower

/-- A negation, a sum with it, and a cast to five bits. -/
def signedBytes : Program where
  exprs := #[.free 0 (.bits 8 true) "a", ⟨⟨1⟩, .bits 8 true, .unary .neg ⟨0⟩⟩,
    ⟨⟨2⟩, .bits 8 true, .constant (-3) 10⟩, .binary 3 (.bits 8 true) .add 1 2,
    ⟨⟨4⟩, .bits 5 true, .cast (.bits 5 true) ⟨0⟩⟩]

def negatedByte : signedBytes.Formula ⟨1⟩ (.num true byte) :=
  .neg ⟨⟨1⟩, rfl⟩ (.leaf (.path ⟨"a", none, false⟩ ⟨⟨0⟩, rfl⟩))

def negatedSum : signedBytes.Formula ⟨3⟩ (.num true byte) :=
  .arith .add ⟨⟨3⟩, rfl⟩ negatedByte (.constant (-3 : BitVec 8) 10 ⟨⟨2⟩, rfl⟩)

def narrowedByte : signedBytes.Formula ⟨4⟩ (.num true ⟨5, by decide, by decide⟩) :=
  .cast (w := byte) ⟨⟨4⟩, rfl⟩ rfl (.leaf (.path ⟨"a", none, false⟩ ⟨⟨0⟩, rfl⟩))

theorem signedBytes_plainNames : signedBytes.PlainNames := by
  constructor <;> simp [signedBytes]
  decide

/-- Every number has the same bits. -/
def everywhere (n : Int) : Program.Valuation
  | _, .num _ w => BitVec.ofInt w.size n
  | _, .bool => false

/-- The least byte is out of range when it is negated, and the sum with -3 takes it back. -/
theorem signedBytes_negation_and_sum : ∃ text sum,
    signedBytes.Writes none ⟨1⟩ text ∧ signedBytes.Writes none ⟨3⟩ sum ∧
      ∃ σ, (negatedSum.readings (everywhere (-128))).Agrees signedBytes none σ ∧
        evaluate σ text ≠ some (Quantity.number _ (negatedByte.value (everywhere (-128)))) ∧
        evaluate σ sum = some 125 := by
  have hc : (negatedSum.readings (everywhere (-128))).Coherent signedBytes none := by
    intro x hx y hy _ _ _
    rw [List.mem_singleton.1 hx, List.mem_singleton.1 hy]
  obtain ⟨text, hw, h⟩ := (negatedByte.exact_iff_in_range rfl signedBytes_plainNames none).2 trivial
  obtain ⟨sum, hw', h'⟩ := (negatedSum.exact_iff_in_range rfl signedBytes_plainNames none).2
    ⟨trivial, trivial, fun _ => rfl⟩
  obtain ⟨⟨σ, hσ⟩, hsum⟩ := h' _ hc
  obtain ⟨-, hneg, -⟩ := (h (everywhere (-128)) hc).2 σ hσ
  obtain ⟨-, hsum, -⟩ := hsum σ hσ
  refine ⟨text, sum, hw, hw', σ, hσ, fun heq => ?_, ?_⟩
  · exact absurd ((hneg trivial).1 heq) (by decide +kernel)
  · rw [(hsum ⟨trivial, trivial⟩).2 (by decide +kernel)]
    decide +kernel

/-- The negation of -128 gives 128, and 100 cast to five bits stays 100. Nothing is reported. -/
theorem signedBytes_out_of_range :
    let lowered (i : ExprId) := (Session.start .standard).lowerExpression signedBytes i none .value
    ∃ negation narrowed,
      (lowered ⟨1⟩).1 = .ok ⟨.expression, [], negation, []⟩ ∧ (lowered ⟨1⟩).2.diagnostics = [] ∧
      evaluate (fun _ => some (-128)) negation = some 128 ∧
      Quantity.number _ (negatedByte.value (everywhere (-128))) = -128 ∧
      (lowered ⟨4⟩).1 = .ok ⟨.expression, [], narrowed, []⟩ ∧ (lowered ⟨4⟩).2.diagnostics = [] ∧
      evaluate (fun _ => some 100) narrowed = some 100 ∧
      Quantity.number _ (narrowedByte.value (everywhere 100)) = 4 := by
  refine ⟨"(-a)", "((int8_t) a)", ?_, ?_, ?_, ?_, ?_, ?_, ?_, ?_⟩ <;> decide +kernel

end Lower

end PacketC
