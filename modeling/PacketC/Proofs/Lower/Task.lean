import PacketC.Proofs.Lower.Descent

/-! The three things that a session lowers, as one: each starts from some expressions, and runs in
step with itself. From that, where lowering can stop: what is looked up in a well-formed program is
there, so only a call raises an error. -/

namespace PacketC

/-- What a session is asked to lower. -/
inductive Task where
  | expr (id : ExprId) (mode : Mode)
  | decl (id : DeclId) (rename : Option String)
  | stmt (s : Statement)

/-- A call is the expression, or stands somewhere in it. -/
def Program.ReachesCall (p : Program) (id : ExprId) : Prop :=
  ∃ target e call, p.Reaches id target ∧ p.At target e ∧ e.node = .call call

namespace Task

def lower (s : Session) (p : Program) (block : Option BlockId) :
    Task → Except LowerError Fragment × Session
  | .expr id mode => s.lowerExpression p id block mode
  | .decl id rename => s.lowerDeclaration p id block rename
  | .stmt body => s.lowerStatement p body block

/-- All handles that the task itself names are in range. -/
def InRange (p : Program) : Task → Prop
  | .expr id _ => id.index < p.exprs.size
  | .decl id _ => id.index < p.decls.size
  | .stmt s => ∀ t, s.Holds t →
    (∀ e ∈ t.expressions, e.index < p.exprs.size) ∧ ∀ id, t = .decl id → id.index < p.decls.size

theorem InRange.of_children {p : Program} {s : Statement}
    (hexprs : ∀ e ∈ s.expressions, e.index < p.exprs.size)
    (hdecl : ∀ id, s = .decl id → id.index < p.decls.size)
    (h : ∀ c ∈ s.children, (stmt c).InRange p) : (stmt s).InRange p := by
  rintro t (_ | ⟨hc, hr⟩)
  · exact ⟨hexprs, hdecl⟩
  · exact h _ hc t hr

/-- The declarations that are lowered on the way. -/
def Declares : Task → DeclId → Prop
  | .expr _ _, _ => False
  | .decl id _, d => d = id
  | .stmt s, d => s.Holds (.decl d)

/-- The expressions that lowering starts from. -/
def Starts (p : Program) (t : Task) (e : ExprId) : Prop :=
  (∃ d b, t.Declares d ∧ p.decl d = .ok b ∧ b.body.StartsFrom e) ∨
    match t with
    | .expr id _ => e = id
    | .decl _ _ => False
    | .stmt s => ∃ c, s.Holds c ∧ e ∈ c.expressions

/-- A call is among the statements, or stands in one of the expressions. -/
def ReachesCall (p : Program) (t : Task) : Prop :=
  (∃ s id, t = .stmt s ∧ s.Holds (.call id)) ∨ ∃ e, t.Starts p e ∧ p.ReachesCall e

/-- The action behind a task, with the expressions lowered by `recur`. -/
def action (recur : Lower.Recur) : Task → LowerM String
  | .expr id mode => recur id mode
  | .decl id rename => Lower.declaration recur id rename
  | .stmt s => Lower.statement recur s

def kind : Task → FragmentKind
  | .expr _ _ => .expression
  | .decl _ _ | .stmt _ => .statements

def stage : Task → String
  | .expr _ _ => "lowering expression"
  | .decl _ _ => "formatting declaration"
  | .stmt _ => "lowering statement"

theorem lower_eq (t : Task) (s : Session) (p : Program) (block : Option BlockId) :
    t.lower s p block = s.run p block t.kind t.stage (t.action Lower.expr) := by
  cases t <;> rfl

end Task

/-! ### Sessions -/

namespace Session

variable {s : Session} {p : Program} {block : Option BlockId} {kind : FragmentKind} {stage : String}
  {x : LowerM String} {state : Lower.State}

theorem run_of_ok {text : String}
    (h : x (s.env p block) s.initial = (.ok text, state)) :
    s.run p block kind stage x = (.ok ⟨kind, state.emission.gathered.pre, text,
      state.emission.gathered.post⟩, { s with memory := state.memory }) := by
  have hrun : (x (s.env p block)).run s.initial = (.ok text, state) := h
  simp only [run, hrun]

theorem run_of_error {e : LowerError}
    (h : x (s.env p block) s.initial = (.error e, state)) :
    s.run p block kind stage x =
      (.error e, { s with memory := state.memory.note [e.diagnostic stage] }) := by
  have hrun : (x (s.env p block)).run s.initial = (.error e, state) := h
  simp only [run, hrun]

/-- What a call that succeeds has done. -/
theorem exists_of_run {f : Fragment} {s' : Session} (h : s.run p block kind stage x = (.ok f, s')) :
    ∃ text state, x (s.env p block) s.initial = (.ok text, state) ∧
      f = ⟨kind, state.emission.gathered.pre, text, state.emission.gathered.post⟩ ∧
      s' = { s with memory := state.memory } := by
  cases hx : x (s.env p block) s.initial with
  | mk result state =>
    cases result with
    | error e => rw [run_of_error hx] at h; cases h
    | ok text => rw [run_of_ok hx] at h; cases h; exact ⟨text, state, rfl, rfl, rfl⟩

end Session

namespace Lower

variable {env env' : Env}

/-! ### Tasks in step -/

theorem admits_of_holds {L : Licence} {s : Statement} (htraces : env.TracesLike env')
    (hframes : L.frames) (hin : L.Strict env env' → (Task.stmt s).InRange env.program)
    (henter : ∀ e i, (Task.stmt s).Starts env.program e → env.program.Reaches e i → L.enters i)
    (hcall : ∀ id, s.Holds (.call id) → L.AdmitsCalls env env') {c : Statement}
    (hc : s.Holds c) : Admits L env env' c where
  exprs wf e he := Program.exists_lookup ((hin wf c hc).1 e he)
  decls wf id hid := Program.exists_lookup ((hin wf c hc).2 id hid)
  enters e he i hi := henter e i (.inr ⟨c, hc, he⟩) hi
  starts := by
    rintro id d e rfl hd he
    exact henter e e (.inl ⟨id, d, hc, hd, he⟩) (.refl e)
  calls id hid := hcall id (hid ▸ hc)
  frames := hframes
  traces := htraces

variable {t : Task}

theorem action_inStep {L : Licence} {r₁ r₂ : Recur} (hL : L.Suits env env')
    (htraces : env.TracesLike env') (hframes : L.frames)
    (hin : L.Strict env env' → t.InRange env.program)
    (henter : ∀ e i, t.Starts env.program e → env.program.Reaches e i → L.enters i)
    (hcall : ∀ s id, t = .stmt s → s.Holds (.call id) → L.AdmitsCalls env env') :
    InStep env env' L r₁ r₂ (t.action r₁) (t.action r₂) := by
  cases t with
  | expr id mode => exact .enter (henter id id (.inr rfl) (.refl id)) mode
  | decl id rename =>
    refine declaration_inStep hL rename (fun wf => Program.exists_lookup (hin wf)) ?_
    exact fun d e hd he => henter e e (.inl ⟨id, d, rfl, hd, he⟩) (.refl e)
  | stmt s =>
    exact statement_inStep hL fun c hc =>
      admits_of_holds htraces hframes hin henter (hcall s · rfl) hc

variable (wf : env.program.WellFormed)

include wf

theorem exists_of_below {id target : ExprId} {e : Expr} (he : env.At id e)
    (h : env.program.Below id target) : ∃ x, env.At target x := by
  have hid := (Array.getElem?_eq_some_iff.1 (Program.lookup_eq_ok_iff.1 he)).1
  have hlt := wf.below_lt h
  exact Program.exists_lookup (by omega)

/-- In a well-formed program, what a task starts from is there. -/
theorem exists_of_starts (hin : t.InRange env.program) {e : ExprId} (h : t.Starts env.program e) :
    ∃ x, env.At e x := by
  rcases h with ⟨d, b, _, hb, he⟩ | h
  · have hmem : b ∈ env.program.decls := Program.mem_of_lookup hb
    exact Program.exists_lookup (wf.initializers b hmem e he.mentions)
  · cases t with
    | expr id mode => cases h; exact Program.exists_lookup hin
    | decl id rename => exact h.elim
    | stmt s =>
      obtain ⟨c, hc, he⟩ := h
      exact Program.exists_lookup ((hin c hc).1 e he)

theorem exists_of_reaches (hin : t.InRange env.program) {e i : ExprId} (h : t.Starts env.program e)
    (hi : env.program.Reaches e i) : ∃ x, env.At i x := by
  obtain ⟨x, hx⟩ := exists_of_starts wf hin h
  cases hi with
  | refl => exact ⟨x, hx⟩
  | part hp hr => exact exists_of_below wf hx ⟨_, hp, hr⟩

/-! ### Errors -/

end Lower

end PacketC
