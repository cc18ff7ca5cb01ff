import PacketC.Proofs.Lower.Growth

/-! Diagnostics on the way. Lowering loses no diagnostic, so what one part of an action reports is
reported at its end, if the action gets there. -/

namespace PacketC

namespace Memory

/-- All diagnostics are still there. -/
def Keeps (before after : Memory) : Prop := before.diagnostics <+: after.diagnostics

/-- All diagnostics are still there, and one of the given severity has been added. -/
def Gains (severity : Severity) (before after : Memory) : Prop :=
  ∃ new, after.diagnostics = before.diagnostics ++ new ∧ ∃ d ∈ new, d.severity = severity

theorem Keeps.refl (m : Memory) : m.Keeps m := List.prefix_refl _

theorem Keeps.trans {a b c : Memory} (h : a.Keeps b) (k : b.Keeps c) : a.Keeps c :=
  List.IsPrefix.trans h k

variable {severity : Severity} {a b c : Memory}

theorem Gains.and_keeps (h : Gains severity a b) (k : b.Keeps c) : Gains severity a c := by
  obtain ⟨new, hb, d, hd, hs⟩ := h
  obtain ⟨more, hc⟩ := k
  exact ⟨new ++ more, by rw [← hc, hb, List.append_assoc], d, List.mem_append_left _ hd, hs⟩

theorem Keeps.and_gains (h : a.Keeps b) (k : Gains severity b c) : Gains severity a c := by
  obtain ⟨more, hb⟩ := h
  obtain ⟨new, hc, d, hd, hs⟩ := k
  exact ⟨more ++ new, by rw [hc, ← hb, List.append_assoc], d, List.mem_append_right _ hd, hs⟩

end Memory

namespace Lower

variable {α β : Type} {env : Env} {x y : LowerM α} {f : α → LowerM β} {severity : Severity}
  {id : ExprId}

/-- The action loses no diagnostic, whether it succeeds or not. -/
def Keeping (env : Env) (x : LowerM α) : Prop :=
  ∀ s : State, s.memory.Keeps (x env s).2.memory

/-- An action that succeeds has recorded a diagnostic. -/
def Reports (env : Env) (severity : Severity) (x : LowerM α) : Prop :=
  ∀ (s : State) (a : α) (t : State), x env s = (.ok a, t) → Memory.Gains severity s.memory t.memory

theorem InStep.keeping (h : InStep env env .any Lower.expr Lower.expr x x) : Keeping env x :=
  fun s => (h.remembers s).diagnostics

theorem Keeping.pure (a : α) : Keeping env (pure a : LowerM α) := fun _ => .refl _

namespace Reports

theorem of_env (h : x env = y env) (hy : Reports env severity y) : Reports env severity x :=
  fun _ _ _ hx => hy _ _ _ (h ▸ hx)

/-- The first part reports. -/
theorem bind (hx : Reports env severity x) (hf : ∀ a, Returns env x a → Keeping env (f a)) :
    Reports env severity (x >>= f) := by
  intro s b u h
  obtain ⟨a, t, ha, h⟩ := exists_of_bind h
  have hkeeps := hf a ⟨s, t, ha⟩ t
  rw [h] at hkeeps
  exact (hx _ _ _ ha).and_keeps hkeeps

/-- The rest reports. -/
theorem after (hx : Keeping env x) (hf : ∀ a, Returns env x a → Reports env severity (f a)) :
    Reports env severity (x >>= f) := by
  intro s b u h
  obtain ⟨a, t, ha, h⟩ := exists_of_bind h
  have hkeeps := hx s
  rw [ha] at hkeeps
  exact hkeeps.and_gains (hf a ⟨s, t, ha⟩ _ _ _ h)

theorem look {g : Program → Except ProgramError α} {a : α} (h : g env.program = .ok a)
    (hf : Reports env severity (f a)) : Reports env severity (Lower.look g >>= f) :=
  of_env (bind_of_pure (look_of_ok h)) hf

theorem note {ds : List Diagnostic} {d : Diagnostic} (h : d ∈ ds) :
    Reports env d.severity (Lower.note ds) := by
  intro s a t hrun
  cases hrun
  exact ⟨ds, rfl, d, h, rfl⟩

theorem report (category : Category) (stage message : String) :
    Reports env .error (Lower.report category stage message) := note (.head _)

theorem warn (stage message : String) : Reports env .warning (Lower.warn stage message) :=
  note (.head _)

theorem framed (hx : Reports env severity x) : Reports env severity (Lower.framed x) := by
  intro s a t h
  rw [run_framed] at h
  rcases hrun : x env s.push with ⟨e | b, u⟩
  · rw [hrun] at h
    cases h
  · rw [hrun] at h
    cases h
    have hgains := hx _ _ _ hrun
    exact hgains

/-- One of the items reports. -/
theorem mapM {l : List α} {a : α} (ha : a ∈ l) (h : Reports env severity (f a))
    (hs : ∀ b ∈ l, InStep env env .any expr expr (f b) (f b)) :
    Reports env severity (l.mapM f) := by
  induction l with
  | nil => cases ha
  | cons b l ih =>
    have hrest : InStep env env .any expr expr (l.mapM f) (l.mapM f) := .mapM fun c hc =>
      hs c (.tail b hc)
    rw [List.mapM_cons]
    rcases List.mem_cons.1 ha with rfl | ha
    · exact h.bind fun _ _ => (hrest.bind fun _ _ => .pure _).keeping
    · exact after (hs b (.head l)).keeping fun _ _ =>
        (ih ha fun c hc => hs c (.tail b hc)).bind fun _ _ => .pure _

end Reports

/-! ### Without calls -/

/-- The licence of an expression with no call in it. -/
def quiet (p : Program) (id : ExprId) : Licence :=
  ⟨p.Below id, fun _ => False, True, fun _ => True, False, False⟩

theorem nodeText_quiet (wf : env.program.WellFormed) {e : Expr} (he : env.At id e)
    (hcall : ¬env.program.ReachesCall id) (r₁ r₂ : Recur) (mode : Mode) :
    InStep env env (quiet env.program id) r₁ r₂ (nodeText r₁ e mode) (nodeText r₂ e mode) := by
  refine nodeText_inStep (.inl ⟨.refl wf, trivial⟩) he (fun call hnode => ?_) (fun _ hj => hj)
    trivial mode
  exact (hcall ⟨id, e, call, .refl id, he, hnode⟩).elim

theorem not_reachesCall_of_reaches {p : Program} {target : ExprId} (h : p.Reaches id target)
    (hcall : ¬p.ReachesCall id) : ¬p.ReachesCall target := by
  rintro ⟨t, e, call, hr, hcall'⟩
  exact hcall ⟨t, e, call, h.trans hr, hcall'⟩

end Lower

end PacketC
