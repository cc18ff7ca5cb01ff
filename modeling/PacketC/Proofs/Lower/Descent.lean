import PacketC.Proofs.Lower.StatementSteps

/-! Lowering comes to an end. In a program that passes the check an expression leads only to
expressions with smaller handles, so the expression at index `i` needs at most `i + 1` levels, and
what would happen one level further down is never asked. A statement leads to the statements in it
and to such expressions. -/

namespace PacketC.Lower

/-- One level of lowering. -/
def level (recur : Recur) : Recur := fun id mode => do
  let e ← look (·.expr id)
  nodeText recur e mode

/-- The given number of levels; below them, `bottom` takes over. -/
def levels (body : Recur → Recur) (bottom : Recur) : Nat → Recur
  | 0 => bottom
  | n + 1 => body (levels body bottom n)

/-- A level asks only for expressions with smaller handles. -/
def Descending (env : Env) (body : Recur → Recur) : Prop :=
  ∀ (id : ExprId) (r₁ r₂ : Recur),
    (∀ j, j.index < id.index → ∀ mode, r₁ j mode env = r₂ j mode env) →
    ∀ mode, body r₁ id mode env = body r₂ id mode env

variable {env : Env}

/-! ### Levels -/

/-- With more levels than the index of an expression, neither their number nor the bottom
matters. -/
theorem Descending.levels_eq {body : Recur → Recur} (h : Descending env body) (b₁ b₂ : Recur)
    {m n : Nat} {id : ExprId} (hm : id.index < m) (hn : id.index < n) (mode : Mode) :
    levels body b₁ m id mode env = levels body b₂ n id mode env := by
  obtain ⟨m, rfl⟩ : ∃ k, m = k + 1 := ⟨m - 1, by omega⟩
  obtain ⟨n, rfl⟩ : ∃ k, n = k + 1 := ⟨n - 1, by omega⟩
  rw [levels, levels]
  refine h id _ _ (fun j hj mode => ?_) mode
  exact h.levels_eq b₁ b₂ (by omega) (by omega) mode
termination_by id.index

/-- As many levels as each expression asks for satisfy the equation of the recursion. -/
theorem Descending.levels_fix {body : Recur → Recur} (h : Descending env body) (bottom : Recur)
    (id : ExprId) (mode : Mode) :
    levels body bottom (id.index + 1) id mode env =
      body (fun j => levels body bottom (j.index + 1) j) id mode env := by
  rw [levels]
  exact h id _ _ (fun j hj mode => h.levels_eq bottom bottom hj (Nat.lt_succ_self _) mode) mode

/-! ### Expressions -/

theorem level_of_ok (recur : Recur) {id : ExprId} {e : Expr} (he : env.At id e)
    (mode : Mode) : level recur id mode env = nodeText recur e mode env :=
  bind_of_pure (look_of_ok he)

theorem level_of_error (recur : Recur) {id : ExprId} {e : ProgramError}
    (he : env.program.expr id = .error e) (mode : Mode) :
    level recur id mode env = (throw (.program e) : LowerM String) env := by
  funext s
  rw [level, run_bind, look_of_error he, run_throw, run_throw]

theorem level_descending (wf : env.program.WellFormed) : Descending env level := by
  intro id r₁ r₂ h mode
  cases he : env.program.expr id with
  | error e => rw [level_of_error r₁ he, level_of_error r₂ he]
  | ok e =>
    rw [level_of_ok r₁ he, level_of_ok r₂ he]
    let smaller : Licence :=
      ⟨fun j => j.index < id.index, fun _ => True, True, fun _ => True, False, True⟩
    have hstep : InStep env env smaller r₁ r₂ (nodeText r₁ e mode) (nodeText r₂ e mode) :=
      nodeText_inStep (.inl ⟨.refl wf, trivial⟩) he (fun _ _ => ⟨fun _ _ => trivial, trivial, rfl⟩)
        (fun _ hj => wf.below_lt hj) trivial mode
    exact hstep.run_eq h

theorem exprWithin_eq_levels (depth : Nat) :
    exprWithin depth = levels level (exprWithin 0) depth := by
  induction depth with
  | zero => rfl
  | succ depth ih => funext id mode; rw [exprWithin, levels, level, ih]

/-- Lowering is lowering through as many levels as the index of the expression asks for. -/
theorem expr_eq_levels (wf : env.program.WellFormed) (bottom : Recur) (id : ExprId) (mode : Mode) :
    expr id mode env = levels level bottom (id.index + 1) id mode env := by
  have hexpr : expr id mode env = exprWithin (env.program.exprs.size + 1) id mode env := rfl
  rw [hexpr, exprWithin_eq_levels]
  cases he : env.program.expr id with
  | error e => rw [levels, levels, level_of_error _ he, level_of_error _ he]
  | ok e =>
    have hlt := (Array.getElem?_eq_some_iff.1 (Program.lookup_eq_ok_iff.1 he)).1
    exact (level_descending wf).levels_eq _ bottom (by omega) (Nat.lt_succ_self _) mode

/-- Lowering an expression leads back to lowering the expressions in it. -/
theorem expr_eq_nodeText (wf : env.program.WellFormed) {id : ExprId} {e : Expr}
    (he : env.At id e) (mode : Mode) :
    expr id mode env = nodeText expr e mode env := by
  rw [expr_eq_levels wf (exprWithin 0), (level_descending wf).levels_fix, ← level_of_ok expr he]
  exact level_descending wf id _ _ (fun j _ mode => (expr_eq_levels wf _ j mode).symm) mode

/-! ### Statements -/

theorem bodyBy_congr {i₁ i₂ : Statement → LowerM String} {s : Option Statement}
    (h : ∀ t, s = some t → i₁ t = i₂ t) : bodyBy i₁ s = bodyBy i₂ s := by
  cases s with
  | none => rfl
  | some t => rw [bodyBy, bodyBy, h t rfl]

theorem mapM_congr {α β : Type} {f g : α → LowerM β} {l : List α} (h : ∀ a ∈ l, f a = g a) :
    l.mapM f = l.mapM g := by
  induction l with
  | nil => rfl
  | cons a l ih =>
    rw [List.mapM_cons, List.mapM_cons, h a (.head l), ih fun b hb => h b (.tail a hb)]

/-- One statement depends on how the statements in it are lowered, and on no other statement. -/
theorem statementStep_congr (recur : Recur) {i₁ i₂ : Statement → LowerM String} {s : Statement}
    (h : ∀ c ∈ s.children, i₁ c = i₂ c) : statementStep recur i₁ s = statementStep recur i₂ s := by
  cases s with
  | block components annotations =>
    have hparts : (components.mapM fun s => enclosed (i₁ s)) =
        components.mapM fun s => enclosed (i₂ s) := mapM_congr fun c hc => by rw [h c hc]
    rw [statementStep, statementStep, hparts]
  | cond condition ifTrue ifFalse =>
    simp only [Statement.children, List.mem_append, Option.mem_toList] at h
    rw [statementStep, statementStep, bodyBy_congr fun t ht => h t (.inl ht),
      bodyBy_congr fun t ht => h t (.inr ht)]
  | switch selector cases =>
    have harms : cases.mapM (armBy recur i₁) = cases.mapM (armBy recur i₂) := by
      refine mapM_congr fun a ha => ?_
      rw [armBy, armBy, bodyBy_congr fun t ht => h t (List.mem_filterMap.2 ⟨a, ha, ht⟩)]
    rw [statementStep, statementStep, harms]
  | _ => rfl

/-- Of lowering an expression, a statement sees no more than what it does in its environment. -/
theorem statement_congr {r₁ r₂ : Recur} (h : ∀ id mode, r₁ id mode env = r₂ id mode env)
    (s : Statement) : statement r₁ s env = statement r₂ s env :=
  (statement_any s).run_eq fun id _ mode => h id mode

/-! ### The whole descent -/

/-- How far lowering goes down. -/
structure Descends (env : Env) : Prop where
  /-- An expression leads to expressions with smaller handles only, … -/
  smaller : Descending env level
  /-- … so the expression at index `i` needs no more than `i + 1` levels. -/
  depth : ∀ bottom id mode, expr id mode env = levels level bottom (id.index + 1) id mode env
  /-- A statement leads back to lowering statements, … -/
  step : ∀ recur s, statement recur s = statementStep recur (statement recur) s
  /-- … but only those that are directly in it, … -/
  nested : ∀ recur s i₁ i₂, (∀ c ∈ s.children, i₁ c = i₂ c) →
    statementStep recur i₁ s = statementStep recur i₂ s
  /-- … which are smaller, … -/
  shrinks : ∀ s c : Statement, c ∈ s.children → sizeOf c < sizeOf s
  /-- … and to lowering expressions, each through its own number of levels. -/
  exprs : ∀ bottom s, statement expr s env =
    statement (fun id => levels level bottom (id.index + 1) id) s env

theorem descends_of_validate (env : Env) (hv : env.program.validate = .ok ()) : Descends env where
  smaller := level_descending (.of_validate hv)
  depth := expr_eq_levels (.of_validate hv)
  step := statement_eq_step
  nested recur _ _ _ h := statementStep_congr recur h
  shrinks _ _ h := sizeOf_lt_of_mem_children h
  exprs bottom s := statement_congr (expr_eq_levels (.of_validate hv) bottom) s

/-- `a + 200`, or 200 where that wraps around. -/
def clampedSum : Program where
  exprs := #[.free 0 (.bits 8 false) "a", .number 1 8 200, .binary 2 (.bits 8 false) .add 0 1,
    .binary 3 .bool .lss 2 0, ⟨⟨4⟩, .bits 8 false, .mux ⟨3⟩ ⟨1⟩ ⟨2⟩⟩]

theorem clampedSum_descends : clampedSum.validate = .ok () ∧
    Descends ⟨⟨clampedSum, .standard, .empty⟩, none⟩ :=
  ⟨rfl, descends_of_validate _ rfl⟩

end PacketC.Lower
