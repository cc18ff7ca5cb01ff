import PacketC.Proofs.Lower.Reports

/-! Lowering that is made to halt. To say that lowering meets an expression, the expression is given
a trap: lowering meets it if it now ends there. Two runs that halt at different points go the same
way up to where the first of them ends, so what is done at one point wherever lowering comes to it
is done at the end of the run as well. -/

namespace PacketC

deriving instance DecidableEq for Memory

/-- The expression is a list or a transition, so it is marked as written when it is lowered. -/
def Expr.Marks (e : Expr) : Prop :=
  (∃ items, e.node = .list items) ∨ ∃ keys arms, e.node = .select keys arms

namespace Lower

variable {α : Type} {env : Env} {stop : ExprId → Memory → Bool} {id target : ExprId} {s : State}
  {recur : Recur}

/-- An error of the one kind that lowering never raises. -/
def trap : LowerError := .unsupportedWidth "trap"

/-- A level that stops at the target. -/
def trapped (target : ExprId) (recur : Recur) : Recur := fun id mode =>
  if id = target then throw trap else level recur id mode

/-- Lowering that stops where the target is met. -/
def trapAt (target : ExprId) : Recur := fun id =>
  levels (trapped target) (exprWithin 0) (id.index + 1) id

/-- A level that ends at some expressions, depending on the memory there. -/
def halting (stop : ExprId → Memory → Bool) (recur : Recur) : Recur := fun id mode env s =>
  if stop id s.memory then (.error trap, s) else level recur id mode env s

/-- Lowering that ends at some expressions, depending on the memory there. -/
def haltAt (stop : ExprId → Memory → Bool) : Recur := fun id =>
  levels (halting stop) (exprWithin 0) (id.index + 1) id

variable {e : Expr} {mode : Mode} {m : Memory} {L : Licence} {Φ : Memory → Bool → Memory → Prop}

/-- An expression, whatever the memory. -/
def wherever (target : ExprId) : ExprId → Memory → Bool := fun id _ => id = target

/-- An expression with the given memory. -/
def whereWith (target : ExprId) (m : Memory) : ExprId → Memory → Bool := fun id m' =>
  id = target ∧ m' = m

theorem wherever_iff : wherever target id m = true ↔ id = target := decide_eq_true_iff

theorem whereWith_iff {m' : Memory} :
    whereWith target m id m' = true ↔ id = target ∧ m' = m := decide_eq_true_iff

theorem wherever_of_whereWith (id : ExprId) (m' : Memory) (h : whereWith target m id m' = true) :
    wherever target id m' = true :=
  wherever_iff.2 (whereWith_iff.1 h).1

/-- A trap is a halt at the target, wherever it is met. -/
theorem trapAt_eq_haltAt (target : ExprId) : trapAt target = haltAt (wherever target) := by
  have hlevel : trapped target = halting (wherever target) := by
    funext recur id mode env s
    simp only [trapped, halting, wherever_iff]
    split <;> rfl
  unfold trapAt haltAt
  rw [hlevel]

/-! ### Actions that halt -/

/-- An action that ends in a trap ends with a memory of which `P` holds. -/
theorem InStep.halts {r₁ r₂ : Recur} {x y : LowerM α} (h : InStep env env L r₁ r₂ x y)
    {P : Memory → Prop} (hfail : ¬L.fails trap)
    (hr : ∀ id, L.enters id → ∀ mode s s', r₁ id mode env s = (.error trap, s') → P s'.memory) :
    ∀ s s', x env s = (.error trap, s') → P s'.memory := by
  induction h with
  | bind _ _ ihx ihf =>
    intro s s' hs
    rw [run_bind] at hs
    split at hs
    · rename_i a t ht
      exact ihf a ⟨s, t, ht⟩ t s' hs
    · rename_i e t ht
      cases hs
      exact ihx s _ ht
  | @framed _ x _ _ _ ih =>
    intro s s' hs
    rw [run_framed] at hs
    rcases hx : x env s.push with ⟨e | a, t⟩
    · rw [hx] at hs
      cases hs
      exact ih _ t hx
    · rw [hx] at hs
      cases hs
  | throw h => intro s s' hs; cases hs; exact (hfail h).elim
  | enter h mode => exact hr _ h mode
  | inEnv hx _ _ ih => rw [hx]; exact ih
  | firstTime =>
    intro s s' hs
    rw [run_firstTime] at hs
    split at hs <;> cases hs
  | _ => intro s s' hs; cases hs

/-- Memory only grows where expressions are lowered. -/
def Growing (env : Env) (recur : Recur) : Prop :=
  ∀ id mode (s : State), s.memory.Grows (recur id mode env s).2.memory

/-- `y` does what `x` does, unless it halts on the way; then `Φ` holds of the memory there, of
whether `x` succeeds and of the memory after `x`. -/
def Trails (env : Env) (Φ : Memory → Bool → Memory → Prop) (x y : LowerM α) : Prop :=
  ∀ s, y env s = x env s ∨
    ∃ s', y env s = (.error trap, s') ∧ Φ s'.memory (x env s).1.isOk (x env s).2.memory

/-- What holds where one part succeeds holds at the end, whether the rest succeeds or fails. -/
def Lasting (Φ : Memory → Bool → Memory → Prop) : Prop :=
  ∀ m ok a b, a.Grows b → Φ m true a → Φ m ok b

theorem InStep.follows {r₁ r₂ : Recur} {x y : LowerM α} (h : InStep env env L r₁ r₂ x y)
    (hΦ : Lasting Φ) (hgrows : Growing env r₁)
    (hr : ∀ id, L.enters id → ∀ mode, Trails env Φ (r₁ id mode) (r₂ id mode)) :
    Trails env Φ x y := by
  induction h with
  | @bind _ _ x y f g _ hf ihx ihf =>
    intro s
    rcases ihx s with heq | ⟨s', hs', hmem⟩
    · rw [run_bind, run_bind, heq]
      rcases hx : x env s with ⟨e | a, t⟩
      · exact .inl rfl
      · exact ihf a ⟨s, t, hx⟩ t
    · -- the second run has ended, and the memory of the first one can only grow
      refine .inr ⟨s', by rw [run_bind, hs'], ?_⟩
      rw [run_bind]
      rcases hx : x env s with ⟨e | a, t⟩ <;> rw [hx] at hmem
      · exact hmem
      · have hrest := (hf a ⟨s, t, hx⟩).upkeep (upkeep_grows _ _) (fun id _ => hgrows id) t
        exact hΦ _ _ _ _ hrest hmem
  | @framed _ x _ _ _ ih =>
    intro s
    rw [run_framed, run_framed]
    rcases ih s.push with heq | ⟨s', hs', hmem⟩
    · exact .inl (by rw [heq])
    · refine .inr ⟨s'.pop, by rw [hs']; rfl, ?_⟩
      rcases hx : x env s.push with ⟨e | a, t⟩ <;> rw [hx] at hmem
      · exact hmem
      · exact hmem
  | enter h mode => exact hr _ h mode
  | inEnv hx hy _ ih => intro s; rw [hx, hy]; exact ih s
  | _ => exact fun s => .inl rfl

theorem IsCallError.ne_trap {e : LowerError} (h : IsCallError e) : e ≠ trap := by
  rintro rfl
  exact h

/-- What a call may do besides lowering expressions. -/
def Licence.outer : Licence := ⟨fun _ => True, (· ≠ trap), False, fun _ => False, True, True⟩

theorem action_outer (t : Task) (r₁ r₂ : Recur) :
    InStep env env .outer r₁ r₂ (t.action r₁) (t.action r₂) :=
  action_inStep (.inr ⟨rfl, fun _ => trivial, fun _ h => nomatch h⟩) rfl trivial
    (fun h => h.strict.elim) (fun _ _ _ _ => trivial)
    fun _ _ _ _ => ⟨fun _ h => h.ne_trap, trivial, rfl⟩

/-! ### Lists and transitions -/

/-- What follows the mark keeps it. -/
theorem firstTime_bind_marks {f : Bool → LowerM α}
    (hf : ∀ first, InStep env env L recur recur (f first) (f first)) (hgrows : Growing env recur)
    (s : State) : id ∈ ((firstTime id >>= f) env s).2.memory.generated := by
  have hrest : ∀ first (t : State), id ∈ t.memory.generated →
      id ∈ (f first env t).2.memory.generated := fun first t h =>
    ((hf first).upkeep (upkeep_grows _ _) (fun id _ => hgrows id) t).generated h
  rw [run_bind, run_firstTime]
  by_cases hgen : s.memory.isGenerated id = true
  · rw [if_pos hgen]
    exact hrest false s (List.contains_iff_mem.1 hgen)
  · rw [if_neg hgen]
    exact hrest true _ (.head _)

/-- A name is found for the buffer in any case, and then the list is marked. -/
theorem nameOf_bind_marks {stem : String} {key : ExprId} {f : String → LowerM α}
    (hf : ∀ name (s : State), id ∈ (f name env s).2.memory.generated) (s : State) :
    id ∈ ((nameOf stem key >>= f) env s).2.memory.generated :=
  hf _ _

theorem bufferText_marks (id : ExprId) (items : List ExprId) (s : State) :
    id ∈ (bufferText id items env s).2.memory.generated := by
  refine nameOf_bind_marks (fun name s => ?_) s
  refine firstTime_bind_marks (L := .any) (fun first => ?_) expr_remembers s
  split
  · refine .bind (bufferCode_inStep (Licence.any_suits _) (fun h => h.strict.elim) name) ?_
    exact fun _ hcode => .bind (.hoistBuffer hcode) fun _ _ => .pure _
  · exact .pure _

theorem transition_marks (hgrows : Growing env recur) (id : ExprId) (keys : List ExprId)
    (arms : List SelectArm) (s : State) :
    id ∈ (transition recur id keys arms env s).2.memory.generated := by
  refine firstTime_bind_marks (L := .any) (fun declare => ?_) hgrows s
  have hL := Licence.any_suits env
  refine .bind (keyNames_inStep hL declare fun k _ => Licence.any_allows env k) ?_
  refine fun names _ => .bind (.mapM fun arm _ => ?_) fun _ _ => .pure _
  exact branch_inStep hL (fun h => h.strict.elim) (fun h => h.strict.elim) fun _ _ => trivial

/-! ### One expression -/

/-- What lowering an expression of a well-formed program may do. -/
def descent (id : ExprId) : Licence :=
  ⟨fun j => j.index < id.index, (· ≠ trap), True, (· = id), False, True⟩

theorem Upkeep.restrict {p : Program} {marks marks' : ExprId → Prop} {R : Memory → Memory → Prop}
    (h : Upkeep p marks R) (hm : ∀ id, marks' id → marks id) : Upkeep p marks' R :=
  ⟨h.refl, h.trans, h.note, h.fresh, h.named, fun hid => h.mark (hm _ hid)⟩

/-- As long as others are marked, an expression is not. -/
theorem upkeep_unmarked (p : Program) (id : ExprId) :
    Upkeep p (· ≠ id) fun a b => id ∈ b.generated → id ∈ a.generated where
  refl _ h := h
  trans h k hc := h (k hc)
  note _ _ h := h
  fresh _ _ h := h
  named _ _ _ h := h
  mark hj _ h := (List.mem_cons.1 h).resolve_left (Ne.symm hj)

variable (wf : env.program.WellFormed)

include wf

theorem haltAt_eq (stop : ExprId → Memory → Bool) (id : ExprId) (mode : Mode) (s : State) :
    haltAt stop id mode env s =
      if stop id s.memory then (.error trap, s) else level (haltAt stop) id mode env s := by
  have hdesc : Descending env (halting stop) := by
    intro id r₁ r₂ h mode
    funext s
    unfold halting
    rw [level_descending wf id r₁ r₂ h mode]
  exact congrFun (hdesc.levels_fix _ id mode) s

theorem haltAt_of_ok (he : env.At id e) (h : stop id s.memory = false) :
    haltAt stop id mode env s = nodeText (haltAt stop) e mode env s := by
  rw [haltAt_eq wf, h, level_of_ok _ he]
  rfl

theorem haltAt_of_error {err : ProgramError} (he : env.program.expr id = .error err)
    (h : stop id s.memory = false) : haltAt stop id mode env s = (.error (.program err), s) := by
  rw [haltAt_eq wf, h, level_of_error _ he]
  rfl

theorem haltAt_of_stop (h : stop id s.memory = true) :
    haltAt stop id mode env s = (.error trap, s) := by
  rw [haltAt_eq wf, h]
  rfl

/-- Without a halt, this is lowering itself. -/
theorem haltAt_never (id : ExprId) (mode : Mode) :
    haltAt (fun _ _ => false) id mode env = expr id mode env := by
  have hlevel : halting (fun _ _ => false) = level := by
    funext recur id mode env s
    simp [halting]
  rw [expr_eq_levels wf (exprWithin 0), haltAt, hlevel]

theorem nodeText_descent (he : env.At id e) (r₁ r₂ : Recur) (mode : Mode) :
    InStep env env (descent id) r₁ r₂ (nodeText r₁ e mode) (nodeText r₂ e mode) :=
  nodeText_inStep (.inl ⟨.refl wf, trivial⟩) he (fun _ _ => ⟨fun _ h => h.ne_trap, trivial, rfl⟩)
    (fun _ hj => wf.below_lt hj) (wf.id_eq he) mode

/-- Lowering marks only what it comes to without a halt. -/
theorem haltAt_upkeep {marks : ExprId → Prop} {R : Memory → Memory → Prop}
    (hR : Upkeep env.program marks R) (hmarks : ∀ id m, stop id m = false → marks id) (id : ExprId)
    (mode : Mode) (s : State) : R s.memory (haltAt stop id mode env s).2.memory := by
  cases hstop : stop id s.memory with
  | true => rw [haltAt_of_stop wf hstop]; exact hR.refl _
  | false =>
    cases he : env.program.expr id with
    | error err => rw [haltAt_of_error wf he hstop]; exact hR.refl _
    | ok e =>
      rw [haltAt_of_ok wf he hstop]
      have hid : ∀ j, (descent id).marks j → marks j := by
        rintro j rfl
        exact hmarks _ _ hstop
      refine (nodeText_descent wf he _ (haltAt stop) mode).upkeep (hR.restrict hid) ?_ s
      intro j hj mode s
      exact haltAt_upkeep hR hmarks j mode s
termination_by id.index
decreasing_by exact hj

theorem haltAt_grows (stop : ExprId → Memory → Bool) : Growing env (haltAt stop) :=
  haltAt_upkeep wf (upkeep_grows _ fun _ => True) fun _ _ _ => trivial

/-! ### Runs that halt -/

/-- What holds wherever lowering may halt holds where it does. -/
theorem haltAt_halts {P : Memory → Prop} (hstop : ∀ id m, stop id m = true → P m) (id : ExprId)
    (mode : Mode) (s s' : State) (h : haltAt stop id mode env s = (.error trap, s')) :
    P s'.memory := by
  cases hv : stop id s.memory with
  | true =>
    rw [haltAt_of_stop wf hv] at h
    cases h
    exact hstop _ _ hv
  | false =>
    cases he : env.program.expr id with
    | error err => rw [haltAt_of_error wf he hv] at h; cases h
    | ok e =>
      rw [haltAt_of_ok wf he hv] at h
      refine (nodeText_descent wf he _ (haltAt stop) mode).halts (fun h => h rfl) ?_ s s' h
      exact fun j hj mode s s' h => haltAt_halts hstop j mode s s' h
termination_by id.index
decreasing_by exact hj

/-! ### Runs that halt earlier -/

/-- Lowering that halts more often follows lowering that halts less often. -/
theorem haltAt_follows {stop' : ExprId → Memory → Bool}
    (hle : ∀ id m, stop id m = true → stop' id m = true) (hΦ : Lasting Φ)
    (hhalt : ∀ id mode s, stop id s.memory = false → stop' id s.memory = true →
      Φ s.memory (haltAt stop id mode env s).1.isOk (haltAt stop id mode env s).2.memory)
    (id : ExprId) (mode : Mode) :
    Trails env Φ (haltAt stop id mode) (haltAt stop' id mode) := by
  intro s
  cases hs : stop id s.memory with
  | true => exact .inl (by rw [haltAt_of_stop wf hs, haltAt_of_stop wf (hle _ _ hs)])
  | false =>
    cases hs' : stop' id s.memory with
    | true => exact .inr ⟨s, haltAt_of_stop wf hs', hhalt id mode s hs hs'⟩
    | false =>
      cases he : env.program.expr id with
      | error err => exact .inl (by rw [haltAt_of_error wf he hs, haltAt_of_error wf he hs'])
      | ok e =>
        rw [haltAt_of_ok wf he hs, haltAt_of_ok wf he hs']
        refine (nodeText_descent wf he _ _ mode).follows hΦ (haltAt_grows wf stop) ?_ s
        exact fun j hj mode => haltAt_follows hle hΦ hhalt j mode
termination_by id.index
decreasing_by exact hj

/-- Wherever a list or a transition is lowered, it is marked afterwards. -/
theorem nodeText_marks (he : env.At id e) (hmarks : e.Marks)
    (hgrows : Growing env recur) (mode : Mode) (s : State) :
    id ∈ (nodeText recur e mode env s).2.memory.generated := by
  obtain rfl := wf.id_eq he
  unfold nodeText
  rcases hmarks with ⟨items, hnode⟩ | ⟨keys, arms, hnode⟩
  · rw [hnode]
    exact bufferText_marks _ items s
  · rw [hnode]
    exact transition_marks hgrows _ keys arms s

/-- Lowering a list or a transition without a halt marks it. -/
theorem haltAt_marks (he : env.At id e) (hmarks : e.Marks) (mode : Mode)
    (h : stop id s.memory = false) : id ∈ (haltAt stop id mode env s).2.memory.generated := by
  rw [haltAt_of_ok wf he h]
  exact nodeText_marks wf he hmarks (haltAt_grows wf stop) mode s

/-! ### Calls -/

variable (env)

theorem action_haltAt_never (t : Task) :
    t.action (haltAt fun _ _ => false) env = t.action expr env :=
  (action_outer t _ _).run_eq fun id _ mode => haltAt_never wf id mode

theorem action_haltAt_upkeep (stop : ExprId → Memory → Bool) {marks : ExprId → Prop}
    {R : Memory → Memory → Prop} (hR : Upkeep env.program marks R)
    (hmarks : ∀ id m, stop id m = false → marks id) (t : Task) (s : State) :
    R s.memory (t.action (haltAt stop) env s).2.memory :=
  (action_outer t _ (haltAt stop)).upkeep (hR.restrict fun _ h => h.elim)
    (fun id _ mode s => haltAt_upkeep wf hR hmarks id mode s) s

theorem action_halts {P : Memory → Prop} (hstop : ∀ id m, stop id m = true → P m) (t : Task)
    {s' : State} (h : t.action (haltAt stop) env s = (.error trap, s')) : P s'.memory :=
  (action_outer t _ (haltAt stop)).halts (fun h => h rfl)
    (fun id _ mode s s' h => haltAt_halts wf hstop id mode s s' h) s s' h

/-- A call does not end in a trap unless it is made to. -/
theorem action_ne_trap (t : Task) (s s' : State) : t.action expr env s ≠ (.error trap, s') := by
  rw [← action_haltAt_never env wf]
  exact action_halts (P := fun _ => False) env wf (fun _ _ h => Bool.noConfusion h) t

theorem action_follows (stop stop' : ExprId → Memory → Bool)
    (hle : ∀ id m, stop id m = true → stop' id m = true) (hΦ : Lasting Φ)
    (hhalt : ∀ id mode s, stop id s.memory = false → stop' id s.memory = true →
      Φ s.memory (haltAt stop id mode env s).1.isOk (haltAt stop id mode env s).2.memory)
    (t : Task) :
    Trails env Φ (t.action (haltAt stop)) (t.action (haltAt stop')) :=
  (action_outer t _ _).follows hΦ (haltAt_grows wf stop) fun id _ mode =>
    haltAt_follows wf hle hΦ hhalt id mode

/-- A call that is not made to halt has done at its end what it does where it could halt. -/
theorem action_expr_follows (stop : ExprId → Memory → Bool)
    (hΦ : Lasting Φ)
    (hhalt : ∀ id mode s, stop id s.memory = true →
      Φ s.memory (expr id mode env s).1.isOk (expr id mode env s).2.memory)
    (t : Task) : Trails env Φ (t.action expr) (t.action (haltAt stop)) := by
  have hfollows := action_follows env wf (fun _ _ => false) stop
    (fun _ _ h => Bool.noConfusion h) hΦ
    (fun id mode s _ hs => haltAt_never wf id mode ▸ hhalt id mode s hs) t
  intro s
  rw [← action_haltAt_never env wf]
  exact hfollows s

/-- A trap ends a call at the first visit of its target, or where a halt at one visit does. -/
theorem action_trapAt_follows (target : ExprId) (m : Memory)
    (hΦ : Lasting Φ)
    (hhalt : ∀ mode s, whereWith target m target s.memory = false →
      Φ s.memory (haltAt (whereWith target m) target mode env s).1.isOk
        (haltAt (whereWith target m) target mode env s).2.memory) (t : Task) :
    Trails env Φ (t.action (haltAt (whereWith target m))) (t.action (trapAt target)) := by
  rw [trapAt_eq_haltAt]
  refine action_follows env wf _ _ wherever_of_whereWith hΦ (fun id mode s hno hyes => ?_) t
  obtain rfl := wherever_iff.1 hyes
  exact hhalt mode s hno

end Lower

end PacketC
