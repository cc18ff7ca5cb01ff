import PacketC.Proofs.Lower.Task

/-! Code stays with the statement that needs it. Lowering adds to the innermost frame and touches
no other, and a frame that is opened for a nested statement is closed again, also if that fails; so
nothing of a nested statement shows in the frame around it. What a statement as a whole has in
front of it and behind it comes from its own expressions. -/

namespace PacketC

/-! ### Frames that grow -/

/-- The frames around the innermost one are as they were, and that one has only been added to. -/
structure Emission.Grows (before after : Emission) : Prop where
  outer : after.outer = before.outer
  pre : before.current.pre <+: after.current.pre
  post : before.current.post <+: after.current.post

namespace Emission.Grows

variable {a b c : Emission}

theorem refl (e : Emission) : e.Grows e := ⟨rfl, List.prefix_refl _, List.prefix_refl _⟩

theorem trans (h : a.Grows b) (k : b.Grows c) : a.Grows c :=
  ⟨k.outer.trans h.outer, h.pre.trans k.pre, h.post.trans k.post⟩

theorem prepend (code : String) (e : Emission) : e.Grows (e.prepend code) := by
  unfold Emission.prepend
  split
  · exact refl e
  · exact ⟨rfl, List.prefix_append _ _, List.prefix_refl _⟩

theorem append (code : String) (e : Emission) : e.Grows (e.append code) :=
  ⟨rfl, List.prefix_refl _, List.prefix_append _ _⟩

theorem depth_eq (h : a.Grows b) : b.depth = a.depth := by
  rw [Emission.depth, Emission.depth, h.outer]

/-- What happens in a frame of its own is undone when the frame is closed. -/
theorem pop_eq (h : a.push.Grows b) : b.pop.2 = a := by
  unfold Emission.pop
  rw [h.outer]
  rfl

/-- From no frame but an empty one, all the code is in the one frame. -/
theorem gathered_eq (h : Emission.empty.Grows a) : a.gathered = a.current := by
  unfold Emission.gathered
  rw [h.outer]
  simp [Emission.empty]

end Emission.Grows

namespace Lower

variable {α β : Type} {env : Env}

/-- Whether the action succeeds or fails, the frames go from one state to another as `R` says. -/
def Emits (env : Env) (R : Emission → Emission → Prop) (x : LowerM α) : Prop :=
  ∀ s : State, R s.emission (x env s).2.emission

/-- The action only adds to the innermost frame. -/
abbrev Confined (env : Env) (x : LowerM α) : Prop := Emits env Emission.Grows x

/-- The action leaves all frames as they were. -/
abbrev Enclosed (env : Env) (x : LowerM α) : Prop := Emits env Eq x

variable {x : LowerM α}

theorem Enclosed.confined (h : Enclosed env x) : Confined env x := by
  intro s
  rw [← h s]
  exact .refl _

theorem Emits.bind {R : Emission → Emission → Prop} (htrans : ∀ {a b c}, R a b → R b c → R a c)
    {f : α → LowerM β} (hx : Emits env R x) (hf : ∀ a, Returns env x a → Emits env R (f a)) :
    Emits env R (x >>= f) := by
  intro s
  have hs := hx s
  rw [run_bind]
  split
  · rename_i a t ht
    rw [ht] at hs
    exact htrans hs (hf a ⟨s, t, ht⟩ t)
  · rename_i e t ht
    rw [ht] at hs
    exact hs

theorem Enclosed.mapM {f : α → LowerM β} {l : List α} (h : ∀ a ∈ l, Enclosed env (f a)) :
    Enclosed env (l.mapM f) := by
  induction l with
  | nil => exact fun _ => rfl
  | cons a l ih =>
    rw [List.mapM_cons]
    refine .bind .trans (h a (.head l)) fun _ _ => ?_
    exact .bind .trans (ih fun b hb => h b (.tail a hb)) fun _ _ _ => rfl

/-- What an action adds to its own frame is gone when the frame is closed. -/
theorem Confined.framed (hx : Confined env x) : Enclosed env (framed x) := by
  intro s
  rw [run_framed]
  exact (hx s.push).pop_eq.symm

theorem Confined.enclosed {x : LowerM String} (hx : Confined env x) :
    Enclosed env (enclosed x) := .bind .trans hx.framed fun _ _ _ => rfl

/-! ### Lowering -/

/-- An action in step adds to the innermost frame only, if what it enters does. -/
theorem InStep.confined {L : Licence} {r₁ r₂ : Recur} {y : LowerM α}
    (h : InStep env env L r₁ r₂ x y) (hr : ∀ id, L.enters id → ∀ mode, Confined env (r₁ id mode)) :
    Confined env x := by
  induction h with
  | bind _ _ ihx ihf => exact .bind .trans ihx ihf
  | firstTime =>
    intro s
    rw [run_firstTime]
    split <;> exact .refl _
  | hoist => exact fun s => .prepend _ s.emission
  | defer => exact fun s => .append _ s.emission
  | framed _ _ ih => exact ih.framed.confined
  | enter h mode => exact hr _ h mode
  | inEnv hx _ _ ih => intro s; rw [hx]; exact ih s
  | _ => exact fun s => .refl _

theorem expr_confined (id : ExprId) (mode : Mode) : Confined env (expr id mode) := by
  refine expr_keeps (R := fun s t => s.emission.Grows t.emission) (fun _ => .refl _) ?_ id mode
  intro recur id e h he mode
  have hstep : InStep env env .any recur recur _ _ := nodeText_any he mode
  exact hstep.confined fun id _ => h id

theorem statement_confined (s : Statement) : Confined env (statement expr s) := by
  have hstep : InStep env env .any expr expr _ _ := statement_any s
  exact hstep.confined fun id _ mode => expr_confined id mode

theorem nested_enclosed (body : Option Statement) : Enclosed env (nested expr body) := by
  cases body with
  | none => intro s; rw [nested]; rfl
  | some s => rw [nested]; exact (statement_confined s).enclosed

theorem blockParts_enclosed (components : List Statement) :
    Enclosed env (blockParts expr components) := by
  rw [blockParts_eq]
  exact .mapM fun s _ => (statement_confined s).enclosed

/-- A nested statement changes nothing but what is remembered. -/
theorem nested_of_ok {body : Option Statement} {text : String} {s t : State}
    (h : nested expr body env s = (.ok text, t)) : ∃ m, t = ⟨m, s.emission⟩ := by
  have hs : s.emission = (nested expr body env s).2.emission := nested_enclosed body s
  rw [h] at hs
  exact ⟨t.memory, by rw [hs]⟩

/-! ### What a statement as a whole hoists -/

theorem controlLock_enclosed : Enclosed env controlLock := by
  refine .bind .trans (fun _ => rfl) fun e _ => ?_
  split
  · exact fun _ => rfl
  · exact fun _ => rfl

theorem block_enclosed (components : List Statement) (annotations : List String) :
    Enclosed env (statement expr (.block components annotations)) := by
  have hparts : ∀ lock, Enclosed env (do
      let parts ← blockParts expr components
      return blockText (← config) lock parts) := fun lock =>
    .bind .trans (blockParts_enclosed components) fun _ _ _ => rfl
  rw [statement]
  dsimp only
  split
  · exact .bind .trans controlLock_enclosed fun lock _ => hparts lock
  · exact hparts none

/-- The labels of a switch, each lowered in the memory that the case before it leaves. The bodies
in between change the memory and nothing else. -/
inductive LabelsHoist (env : Env) : State → List (SwitchArm Statement) → State → Prop
  | nil (s : State) : LabelsHoist env s [] s
  | cons {arm : SwitchArm Statement} {rest : List (SwitchArm Statement)} {s t u : State}
      {m : Memory} {label : Option String} {text : String}
      (hlabel : caseLabel expr arm.label env s = (.ok label, t))
      (hbody : nested expr arm.body env t = (.ok text, ⟨m, t.emission⟩))
      (hrest : LabelsHoist env ⟨m, t.emission⟩ rest u) : LabelsHoist env s (arm :: rest) u

theorem labelsHoist_of_switchArms {cases : List (SwitchArm Statement)} {arms : List Arm}
    {s t : State} (h : switchArms expr cases env s = (.ok arms, t)) :
    LabelsHoist env s cases t := by
  induction cases generalizing arms s with
  | nil => rw [switchArms] at h; cases h; exact .nil _
  | cons arm rest ih =>
    obtain ⟨label, body⟩ := arm
    rw [switchArms] at h
    obtain ⟨_, s₁, hlabel, h⟩ := exists_of_bind h
    obtain ⟨_, s₂, hbody, h⟩ := exists_of_bind h
    obtain ⟨_, s₃, hrest, h⟩ := exists_of_bind h
    cases h
    obtain ⟨m, rfl⟩ := nested_of_ok hbody
    exact .cons hlabel hbody (ih hrest)

end Lower

namespace Session

open Lower

variable {s s' : Session} {p : Program} {block : Option BlockId} {f : Fragment}

/-- A block has no code in front of it or behind it. -/
theorem block_hoists {components : List Statement} {annotations : List String}
    (h : s.lowerStatement p (.block components annotations) block = (.ok f, s')) :
    f.pre = [] ∧ f.post = [] := by
  obtain ⟨text, t, hrun, rfl, -⟩ := exists_of_run h
  have ht := @block_enclosed (s.env p block) components annotations s.initial
  rw [hrun] at ht
  rw [← ht]
  exact ⟨rfl, rfl⟩

/-- The fragment has around it what its condition has around it, when that is lowered in the
session that the two branches leave. -/
def HoistsCondition (s : Session) (p : Program) (block : Option BlockId) (condition : ExprId)
    (ifTrue ifFalse : Option Statement) (f : Fragment) (s' : Session) : Prop :=
  ∃ t m₁ e m₂ g,
    nested expr ifTrue (s.env p block) s.initial = (.ok t, ⟨m₁, .empty⟩) ∧
    nested expr ifFalse (s.env p block) ⟨m₁, .empty⟩ = (.ok e, ⟨m₂, .empty⟩) ∧
    { s with memory := m₂ }.lowerExpression p condition block .value = (.ok g, s') ∧
    f.pre = g.pre ∧ f.post = g.post

theorem cond_hoists {condition : ExprId} {ifTrue ifFalse : Option Statement}
    (h : s.lowerStatement p (.cond condition ifTrue ifFalse) block = (.ok f, s')) :
    s.HoistsCondition p block condition ifTrue ifFalse f s' := by
  obtain ⟨text, u, hrun, rfl, rfl⟩ := exists_of_run h
  rw [statement] at hrun
  obtain ⟨t, s₁, ht, hrun⟩ := exists_of_bind hrun
  obtain ⟨e, s₂, he, hrun⟩ := exists_of_bind hrun
  obtain ⟨c, s₃, hc, hrun⟩ := exists_of_bind hrun
  cases hrun
  obtain ⟨m₁, rfl⟩ := nested_of_ok ht
  obtain ⟨m₂, rfl⟩ := nested_of_ok he
  exact ⟨t, m₁, e, m₂, _, ht, he, run_of_ok hc, rfl, rfl⟩

/-- The fragment has around it what the selector and then the labels in their order put there. -/
def HoistsLabels (s : Session) (p : Program) (block : Option BlockId) (selector : ExprId)
    (cases : List (SwitchArm Statement)) (f : Fragment) (s' : Session) : Prop :=
  ∃ text t u, expr selector .value (s.env p block) s.initial = (.ok text, t) ∧
    LabelsHoist (s.env p block) t cases u ∧ f.pre = u.emission.current.pre ∧
    f.post = u.emission.current.post ∧ s' = { s with memory := u.memory }

theorem switch_hoists {selector : ExprId} {cases : List (SwitchArm Statement)}
    (h : s.lowerStatement p (.switch selector cases) block = (.ok f, s')) :
    s.HoistsLabels p block selector cases f s' := by
  obtain ⟨text, u, hrun, rfl, rfl⟩ := exists_of_run h
  have hframe := @statement_confined (s.env p block) (.switch selector cases)
    s.initial
  rw [hrun] at hframe
  rw [statement] at hrun
  obtain ⟨selected, t, ht, hrun⟩ := exists_of_bind hrun
  obtain ⟨arms, v, harms, hrun⟩ := exists_of_bind hrun
  cases hrun
  rw [hframe.gathered_eq]
  exact ⟨selected, t, _, ht, labelsHoist_of_switchArms harms, rfl, rfl, rfl⟩

/-- Whatever becomes of a statement, its code goes to the innermost frame and nowhere else, and a
nested statement leaves no code behind. So a block has no code around it, a conditional that of its
condition, and a switch that of its selector and labels. -/
theorem code_stays_with_statement (s : Session) (p : Program) (block : Option BlockId) :
    (∀ (stmt : Statement) (t : State),
      t.emission.Grows (statement expr stmt ⟨s.scope p, block⟩ t).2.emission ∧
      (statement expr stmt ⟨s.scope p, block⟩ t).2.emission.depth = t.emission.depth) ∧
    (∀ (body : Option Statement) (t : State),
      (nested expr body ⟨s.scope p, block⟩ t).2.emission = t.emission) ∧
    (∀ components annotations f s',
      s.lowerStatement p (.block components annotations) block = (.ok f, s') →
        f.pre = [] ∧ f.post = []) ∧
    (∀ condition ifTrue ifFalse f s',
      s.lowerStatement p (.cond condition ifTrue ifFalse) block = (.ok f, s') →
        s.HoistsCondition p block condition ifTrue ifFalse f s') ∧
    ∀ selector cases f s', s.lowerStatement p (.switch selector cases) block = (.ok f, s') →
      s.HoistsLabels p block selector cases f s' := by
  refine ⟨fun stmt t => ?_, fun body t => (nested_enclosed body t).symm, ?_, ?_, ?_⟩
  · have hgrows := @statement_confined (s.env p block) stmt t
    exact ⟨hgrows, hgrows.depth_eq⟩
  · exact fun _ _ _ _ h => block_hoists h
  · exact fun _ _ _ _ _ h => cond_hoists h
  · exact fun _ _ _ _ h => switch_hoists h

/-- A comparison of a 48-bit constant with itself; the constant needs an array. -/
def wideEquality : Program where
  exprs := #[.number 0 48 1, .binary 1 .bool .equ 0 0]

/-- Both conditionals need the array, each in its own frame. -/
theorem wideEquality_stays : ∃ f s',
    (start .standard).lowerStatement wideEquality
      (.cond ⟨1⟩ (some (.cond ⟨1⟩ none none)) none) none = (.ok f, s') ∧
    f.pre = ["uint8_t const_0x000000000001_0[] = \x7b0x00, 0x00, 0x00, 0x00, 0x00, 0x01\x7d;"] ∧
    (start .standard).HoistsCondition wideEquality none ⟨1⟩ (some (.cond ⟨1⟩ none none)) none f
      s' :=
  ⟨_, _, rfl, rfl, (code_stays_with_statement _ _ _).2.2.2.1 _ _ _ _ _ rfl⟩

end Session

end PacketC
