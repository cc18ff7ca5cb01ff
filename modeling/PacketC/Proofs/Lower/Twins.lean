import PacketC.Proofs.Lower.Descent

/-! Two runs side by side. Lowering never looks at the code that it has put around the statement, so
two runs that start with the same memory do the same, and whatever relates the code around them
stays: it is the same pieces that are added. -/

namespace PacketC.Lower

variable {α β : Type} {env env' : Env} {R : State → State → Prop}

/-- Two runs come to related results or to the same error, and to related states. -/
inductive EndTwins (R : State → State → Prop) (V : α → α → Prop) :
    Except LowerError α × State → Except LowerError α × State → Prop
  | ok {a b : α} {s t : State} (hV : V a b) (hR : R s t) : EndTwins R V (.ok a, s) (.ok b, t)
  | error (e : LowerError) {s t : State} (hR : R s t) : EndTwins R V (.error e, s) (.error e, t)

/-- From related states, the two actions end alike. -/
def Twins (R : State → State → Prop) (V : α → α → Prop) (env env' : Env) (x y : LowerM α) : Prop :=
  ∀ s t, R s t → EndTwins R V (x env s) (y env' t)

namespace Twins

variable {V W : α → α → Prop}

theorem pure {a b : α} (h : V a b) : Twins R V env env' (Pure.pure a) (Pure.pure b) :=
  fun _ _ hR => .ok h hR

theorem bind {V : α → α → Prop} {W : β → β → Prop} {x y : LowerM α} {f g : α → LowerM β}
    (hx : Twins R V env env' x y)
    (hf : ∀ a b, V a b → Returns env x a → Twins R W env env' (f a) (g b)) :
    Twins R W env env' (x >>= f) (y >>= g) := by
  intro s t hR
  have hend := hx s t hR
  rw [run_bind, run_bind]
  rcases hs : x env s with ⟨e | a, s'⟩ <;> rcases ht : y env' t with ⟨e' | b, t'⟩ <;>
    rw [hs, ht] at hend <;> cases hend
  · exact .error e ‹_›
  · exact hf a b ‹_› ⟨s, s', hs⟩ s' t' ‹_›

theorem mono {x y : LowerM α} (h : Twins R V env env' x y) (hVW : ∀ a b, V a b → W a b) :
    Twins R W env env' x y := by
  intro s t hR
  have hend := h s t hR
  generalize x env s = o, y env' t = o' at hend ⊢
  cases hend with
  | ok hV hR => exact .ok (hVW _ _ hV) hR
  | error e hR => exact .error e hR

/-- Actions may be exchanged for ones that do the same where they are run. -/
theorem of_env {x x' y y' : LowerM α} (hx : x env = x' env) (hy : y env' = y' env')
    (h : Twins R V env env' x' y') : Twins R V env env' x y := by
  intro s t hR
  rw [hx, hy]
  exact h s t hR

end Twins

/-- The states have the same memory, and stay related whatever lowering `p` does to both. -/
structure Parallel (p : Program) (R : State → State → Prop) : Prop where
  memory_eq : ∀ {s t}, R s t → s.memory = t.memory
  note : ∀ {s t}, R s t → ∀ ds,
    R (s.note ds) (t.note ds)
  names : ∀ {s t}, R s t → ∀ {hint}, Hint p hint → ∀ {names},
    names = (s.memory.names.fresh hint).2 ∨
      (∃ id : ExprId, names = (s.memory.names.named hint id.text).2) →
    R (s.withNames names) (t.withNames names)
  mark : ∀ {s t}, R s t → ∀ id,
    R (s.mark id) (t.mark id)
  hoist : ∀ {s t}, R s t → ∀ {code}, Text.Ended code →
    R (s.prepend code) (t.prepend code)
  defer : ∀ {s t}, R s t → ∀ {code}, Text.Ended code →
    R (s.append code) (t.append code)

/-- What runs in step ends alike. -/
theorem InStep.twins {L : Licence} {r₁ r₂ : Recur} {x y : LowerM α}
    (h : InStep env env' L r₁ r₂ x y) (hframes : ¬L.frames) (hR : Parallel env.program R)
    (hr : ∀ id, L.enters id → ∀ mode, Twins R Eq env env' (r₁ id mode) (r₂ id mode)) :
    Twins R Eq env env' x y := by
  induction h with
  | pure a => exact .pure rfl
  | bind _ _ ihx ihf => exact ihx.bind fun a b hab ha => hab ▸ ihf a ha
  | note => exact fun s t h => .ok rfl (hR.note h _)
  | @freshName hint hhint =>
    intro s t h
    have hnames : t.memory.names = s.memory.names := by rw [hR.memory_eq h]
    have hend := hR.names h hhint (.inl rfl)
    show EndTwins R Eq (.ok (s.memory.names.fresh hint).1, _) (.ok (t.memory.names.fresh hint).1, _)
    rw [hnames]
    exact .ok rfl hend
  | @nameOf hint hhint id =>
    intro s t h
    have hnames : t.memory.names = s.memory.names := by rw [hR.memory_eq h]
    have hend := hR.names h hhint (.inr ⟨id, rfl⟩)
    show EndTwins R Eq (.ok (s.memory.names.named hint id.text).1, _)
      (.ok (t.memory.names.named hint id.text).1, _)
    rw [hnames]
    exact .ok rfl hend
  | @firstTime id _ =>
    intro s t h
    rw [run_firstTime, run_firstTime, ← hR.memory_eq h]
    split
    · exact .ok rfl h
    · exact .ok rfl (hR.mark h id)
  | hoist hcode => exact fun s t h => .ok rfl (hR.hoist h hcode)
  | defer hcode => exact fun s t h => .ok rfl (hR.defer h hcode)
  | framed h => exact (hframes h).elim
  | throw => exact fun s t h => .error _ h
  | enter h mode => exact hr _ h mode
  | inEnv hx hy _ ih => exact .of_env hx hy ih

/-! ### Whatever the code around the statement is -/

theorem parallel_memory (p : Program) : Parallel p fun s t => s.memory = t.memory where
  memory_eq h := h
  note h ds := congrArg (Memory.note ds) h
  names h _ _ names _ := congrArg (fun m : Memory => { m with names := names }) h
  mark h id := congrArg (fun m : Memory => { m with generated := id :: m.generated }) h
  hoist h _ _ := h
  defer h _ _ := h

/-- The licence of any expression: frames are for statements. -/
def Licence.unframed : Licence := ⟨fun _ => True, fun _ => True, False, fun _ => True, False, True⟩

theorem Licence.unframed_suits (env : Env) : unframed.Suits env env :=
  .inr ⟨rfl, fun _ => trivial, fun _ => trivial⟩

theorem Licence.unframed_admitsCalls (env : Env) : unframed.AdmitsCalls env env :=
  ⟨fun _ _ => trivial, trivial, rfl⟩

theorem nodeText_unframed {r : Recur} {id : ExprId} {e : Expr} (he : env.At id e)
    (mode : Mode) : InStep env env .unframed r r (nodeText r e mode) (nodeText r e mode) :=
  nodeText_inStep (Licence.unframed_suits env) he (fun _ _ => Licence.unframed_admitsCalls env)
    (fun _ _ => trivial) trivial mode

theorem exprWithin_twins (hR : Parallel env.program R) (depth : Nat) (id : ExprId) (mode : Mode) :
    Twins R Eq env env (exprWithin depth id mode) (exprWithin depth id mode) := by
  induction depth generalizing id mode with
  | zero => exact fun s t h => .error _ h
  | succ depth ih =>
    rw [exprWithin]
    cases he : env.program.expr id with
    | error e =>
      intro s t h
      rw [run_bind, run_bind, look_of_error he]
      exact .error _ h
    | ok e =>
      have hlook : (do nodeText (exprWithin depth) (← look (·.expr id)) mode) env =
          nodeText (exprWithin depth) e mode env := bind_of_pure (look_of_ok he)
      have hstep := (nodeText_unframed he mode).twins (fun h => h) hR fun id _ mode => ih id mode
      exact .of_env hlook hlook hstep

/-- The code around the statement has no influence on an expression. -/
theorem expr_twins (hR : Parallel env.program R) (id : ExprId) (mode : Mode) :
    Twins R Eq env env (expr id mode) (expr id mode) := exprWithin_twins hR _ id mode

end PacketC.Lower
