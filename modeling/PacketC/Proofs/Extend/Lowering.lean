import PacketC.Proofs.Lower.Task

/-! Lowering is stable under extension: whatever is asked of a session about the nodes of a
well-formed program, it answers the same if nodes are added at the ends of the arenas, and it is
left in the same state. -/

namespace PacketC

namespace Lower

variable {env env' : Env}

/-- The same reading of a program and of the program with nodes added. -/
theorem Env.resembles_of_extends {s : Session} {p q : Program} (wf : p.WellFormed)
    (hpq : p.ExtendsTo q) {block : Option BlockId}
    (hblock : ∀ b, block = some b → b.index < p.blocks.size) :
    Env.Resembles (s.env p block) (s.env q block) where
  toWellFormed := wf
  program := hpq
  config := ⟨_, rfl⟩
  aliases := rfl
  isLocal id := by
    cases block with
    | none => rfl
    | some b => exact hpq.isLocalOf_eq (hblock b rfl) id
  block := by
    cases block with
    | none => rfl
    | some b => exact hpq.blocks_eq (hblock b rfl)

/-- With enough levels on both sides, an expression does the same over both programs. -/
theorem Env.Resembles.exprWithin_eq (h : env.Resembles env') (ht : env.TracesLike env') {m n : Nat}
    {id : ExprId} {e : Expr} (he : env.At id e) (hm : id.index < m)
    (hn : id.index < n) (mode : Mode) : exprWithin m id mode env = exprWithin n id mode env' := by
  obtain ⟨m, rfl⟩ : ∃ k, m = k + 1 := ⟨m - 1, by omega⟩
  obtain ⟨n, rfl⟩ : ∃ k, n = k + 1 := ⟨n - 1, by omega⟩
  let below : Licence :=
    ⟨env.program.Below id, fun _ => True, True, fun _ => True, False, True⟩
  have hstep : InStep env env' below (exprWithin m) (exprWithin n)
      (nodeText (exprWithin m) e mode) (nodeText (exprWithin n) e mode) :=
    nodeText_inStep (.inl ⟨h, trivial⟩) he (fun _ _ => ⟨fun _ _ => trivial, trivial, ht⟩)
      (fun _ hj => hj) trivial mode
  rw [exprWithin, exprWithin, bind_of_pure (look_of_ok he),
    bind_of_pure (look_of_ok (h.program.expr he))]
  refine hstep.run_eq fun j hj mode => ?_
  have hlt := h.below_lt hj
  obtain ⟨b, hb⟩ := exists_of_below h.toWellFormed he hj
  exact exprWithin_eq h ht hb (by omega) (by omega) mode
termination_by id.index

theorem Env.Resembles.expr_eq (h : env.Resembles env') (ht : env.TracesLike env') {id : ExprId}
    {e : Expr} (he : env.At id e) (mode : Mode) :
    expr id mode env = expr id mode env' := by
  have hid := (Array.getElem?_eq_some_iff.1 (Program.lookup_eq_ok_iff.1 he)).1
  have hle : env.program.exprs.size ≤ env'.program.exprs.size := by
    simpa using h.program.exprs.length_le
  exact h.exprWithin_eq ht he (m := env.program.exprs.size + 1)
    (n := env'.program.exprs.size + 1) (by omega) (by omega) mode

theorem Env.Resembles.action_eq (h : env.Resembles env') (ht : env.TracesLike env') {t : Task}
    (hin : t.InRange env.program) : t.action expr env = t.action expr env' := by
  let reached : Licence := ⟨fun i => ∃ e, t.Starts env.program e ∧ env.program.Reaches e i,
    fun _ => True, True, fun _ => True, True, True⟩
  have hstep : InStep env env' reached expr expr (t.action expr) (t.action expr) :=
    action_inStep (.inl ⟨h, trivial⟩) ht trivial (fun _ => hin) (fun e i he hi => ⟨e, he, hi⟩)
      fun _ _ _ _ => ⟨fun _ _ => trivial, trivial, ht⟩
  refine hstep.run_eq fun id ⟨e, he, hid⟩ mode => ?_
  obtain ⟨x, hx⟩ := exists_of_reaches h.toWellFormed hin he hid
  exact h.expr_eq ht hx mode

end Lower

/-- Nodes that are added at the ends of the arenas of a well-formed program change nothing: neither
the fragment or the error that a call ends with, nor what the session remembers. -/
theorem Task.lower_extend {p q : Program} (hv : p.validate = .ok ()) (hpq : p.ExtendsTo q)
    (s : Session) (block : Option BlockId)
    (hblock : ∀ b, block = some b → b.index < p.blocks.size) (t : Task) (ht : t.InRange p) :
    t.lower s p block = t.lower s q block := by
  have hsame : t.action Lower.expr (s.env p block) = t.action Lower.expr (s.env q block) :=
    (Lower.Env.resembles_of_extends (.of_validate hv) hpq hblock).action_eq rfl ht
  rw [t.lower_eq, t.lower_eq]
  simp only [Session.run, hsame]

/-- `n + 1`, in a control that has `n` among its locals. -/
def localCount : Program where
  exprs := #[.declared 0 (.bits 16 false) "n" 0, .number 1 16 1,
    .binary 2 (.bits 16 false) .add 0 1]
  decls := #[⟨"n", .var (.bits 16 false) none⟩]
  blocks := #[⟨"c", "Count", .control, [⟨0⟩]⟩]

/-- The same with nodes added, of which some point past the ends of their arenas. -/
def grownCount : Program where
  exprs := localCount.exprs.push ⟨⟨9⟩, .name ⟨4⟩, .list [⟨0⟩, ⟨7⟩]⟩
  decls := localCount.decls.push ⟨"n", .table⟩
  typeDecls := #[⟨"Count", .struct [⟨"n", .name ⟨4⟩⟩] false⟩]
  headers := #[⟨"h", ⟨4⟩, false⟩]
  blocks := localCount.blocks.push ⟨"c", "Count", .parser, [⟨5⟩]⟩

/-- `n = n + 1`, under the lock of the control. -/
def countUp : Statement := .block [.assign ⟨0⟩ ⟨2⟩] [Statement.atomicMark]

theorem countUp_inRange : (Task.stmt countUp).InRange localCount := by
  refine .of_children nofun nofun fun c hc => ?_
  cases List.mem_singleton.1 hc
  exact .of_children (by decide) nofun nofun

theorem countUp_lower_grown : localCount.validate = .ok () ∧ grownCount.validate ≠ .ok () ∧
    localCount.ExtendsTo grownCount ∧ (Task.stmt countUp).InRange localCount ∧
    (Task.stmt countUp).lower (.start .standard) localCount (some ⟨0⟩) =
      (Task.stmt countUp).lower (.start .standard) grownCount (some ⟨0⟩) := by
  have hgrown : localCount.ExtendsTo grownCount :=
    ⟨⟨_, rfl⟩, ⟨_, rfl⟩, ⟨_, rfl⟩, ⟨_, rfl⟩, ⟨_, rfl⟩⟩
  refine ⟨rfl, nofun, hgrown, countUp_inRange, ?_⟩
  refine Task.lower_extend rfl hgrown _ _ ?_ (.stmt countUp) countUp_inRange
  rintro b ⟨⟩
  decide

end PacketC
