import PacketC.Proofs.Extend.Reading
import PacketC.Proofs.Lower.TypeNotes
import PacketC.Proofs.Text.Lines

/-! What the generator can do. Two actions run in step, each in an environment of its own, if they
carry out the same operations on the state in the same order, and wherever the one has a nested
expression lowered by `r₁`, the other has the same expression lowered by `r₂`. A licence says which
expressions they may enter or mark as written, which errors they may raise, and whether they may
open frames or put code behind the statement; the hints of new names are the same few everywhere,
and code that is moved out of a statement does not end in white space. Where nothing may be put
behind the statement, only declarations are put in front of it. One pass over the generator
shows that each of its functions runs in step with itself, in one environment or in two that
resemble each other; what a call can raise, how deep it can nest and what nodes it leaves unseen are
read off from that. -/

namespace PacketC.Lower

abbrev Env.At (env : Env) : ExprId → Expr → Prop := env.program.At

/-- What an action may do besides the operations on the state. -/
structure Licence where
  enters : ExprId → Prop
  fails : LowerError → Prop
  /-- Nothing is looked up in the program that is not there. -/
  strict : Prop
  marks : ExprId → Prop
  frames : Prop
  defers : Prop

/-- What names are asked for with: the kinds of temporaries, the bytes of a constant, and a field of
a header. -/
inductive Hint (p : Program) : String → Prop
  | var : Hint p "var"
  | value : Hint p "value"
  | value32 : Hint p "value32"
  | buffer : Hint p "buffer"
  | digest : Hint p "digest"
  | digestFields : Hint p "digest_fields"
  | const (value : Int) (bytes : Nat) : Hint p ("const_0x" ++ Literal.hexBytes value bytes)
  | field {h : HeaderInstance} {t : TypeDecl} {f : Field} (hh : h ∈ p.headers)
      (ht : p.typeDecl h.headerType = .ok t) (hf : f ∈ t.fields) : Hint p (h.name ++ "_" ++ f.name)

/-- What is noted where there is no lock to take. -/
def missingLock : Diagnostic :=
  .warning "generating atomic block" "Atomic block outside of a control; no lock is taken"

/-- The action can end with the given result. -/
def Returns {α : Type} (env : Env) (x : LowerM α) (a : α) : Prop :=
  ∃ s s', x env s = (.ok a, s')

/-- The code starts like a declaration: with the type of a number, or as `extern`. -/
def isDeclaring (code : String) : Bool := code.toList.head?.any (['u', 'i', 'e'].contains ·)

@[simp]
theorem isDeclaring_append (a b : String) :
    isDeclaring (a ++ b) = (isDeclaring a || (a.toList.isEmpty && isDeclaring b)) := by
  unfold isDeclaring
  rw [String.toList_append]
  cases a.toList <;> simp

inductive InStep (env env' : Env) (L : Licence) (r₁ r₂ : Recur) :
    {α : Type} → LowerM α → LowerM α → Prop
  | pure {α : Type} (a : α) : InStep env env' L r₁ r₂ (Pure.pure a) (Pure.pure a)
  | bind {α β : Type} {x y : LowerM α} {f g : α → LowerM β} (hx : InStep env env' L r₁ r₂ x y)
      (hf : ∀ a, Returns env x a → InStep env env' L r₁ r₂ (f a) (g a)) :
      InStep env env' L r₁ r₂ (x >>= f) (y >>= g)
  | note {ds : List Diagnostic} (h : missingLock ∈ ds → L.frames) :
      InStep env env' L r₁ r₂ (Lower.note ds) (Lower.note ds)
  | freshName {hint : String} (h : Hint env.program hint) :
      InStep env env' L r₁ r₂ (Lower.freshName hint) (Lower.freshName hint)
  | nameOf {hint : String} (h : Hint env.program hint) (id : ExprId) :
      InStep env env' L r₁ r₂ (Lower.nameOf hint id) (Lower.nameOf hint id)
  | firstTime {id : ExprId} (h : L.marks id) :
      InStep env env' L r₁ r₂ (Lower.firstTime id) (Lower.firstTime id)
  | hoist {code : String} (h : Text.Ended code) (hdecl : L.defers ∨ isDeclaring code = true) :
      InStep env env' L r₁ r₂ (Lower.hoist code) (Lower.hoist code)
  | defer {code : String} (h : Text.Ended code) (hdefers : L.defers) :
      InStep env env' L r₁ r₂ (Lower.defer code) (Lower.defer code)
  | framed {α : Type} {x y : LowerM α} (hframes : L.frames) (h : InStep env env' L r₁ r₂ x y) :
      InStep env env' L r₁ r₂ (Lower.framed x) (Lower.framed y)
  | throw {α : Type} {e : LowerError} (h : L.fails e) :
      InStep env env' L r₁ r₂ (MonadExcept.throw e : LowerM α) (MonadExcept.throw e)
  | enter {id : ExprId} (h : L.enters id) (mode : Mode) :
      InStep env env' L r₁ r₂ (r₁ id mode) (r₂ id mode)
  /-- An action may be exchanged for one that does the same where it is run. -/
  | inEnv {α : Type} {x x' y y' : LowerM α} (hx : x env = x' env) (hy : y env' = y' env')
      (h : InStep env env' L r₁ r₂ x' y') : InStep env env' L r₁ r₂ x y

/-- An action that has nested expressions lowered in one way runs in step with itself where they are
lowered in another. -/
abbrev Steps (env env' : Env) (L : Licence) (r₁ r₂ : Recur) {α : Type} (x : Recur → LowerM α) :
    Prop := InStep env env' L r₁ r₂ (x r₁) (x r₂)

/-! ### Running actions -/

theorem mem_prepend (code : String) (e : Emission) : code ∈ (e.prepend code).current.pre := by
  unfold Emission.prepend
  split
  · rename_i h
    exact List.contains_iff_mem.1 h
  · exact List.mem_append_right _ (.head _)

section Run

variable {α β : Type} {env : Env}

theorem run_bind (x : LowerM α) (f : α → LowerM β) (s : State) :
    (x >>= f) env s =
      match x env s with
      | (.ok a, s') => f a env s'
      | (.error e, s') => (.error e, s') := by
  show (ExceptT.bind (x env) fun a => f a env) s = _
  unfold ExceptT.bind ExceptT.mk
  show (ExceptT.bindCont (fun a => f a env) (x env s).1) (x env s).2 = _
  rcases x env s with ⟨_ | _, _⟩ <;> rfl

variable {x : LowerM α} {a : α} {f : Program → Except ProgramError α}

theorem exists_of_bind {f : α → LowerM β} {b : β} {s u : State} (h : (x >>= f) env s = (.ok b, u)) :
    ∃ a t, x env s = (.ok a, t) ∧ f a env t = (.ok b, u) := by
  rw [run_bind] at h
  split at h
  · rename_i a t ht
    exact ⟨a, t, ht, h⟩
  · cases h

theorem run_pure (a : α) (s : State) : (pure a : LowerM α) env s = (.ok a, s) := rfl

theorem run_throw (e : LowerError) (s : State) :
    (throw e : LowerM α) env s = (.error e, s) := rfl

theorem run_framed (x : LowerM α) (s : State) :
    framed x env s =
      match x env s.push with
      | (result, t) => (result.map fun a => (a, t.emission.pop.1), t.pop) := rfl

theorem exists_of_framed {s t : State} {f : Frame} (h : framed x env s = (.ok (a, f), t)) :
    ∃ u, x env s.push = (.ok a, u) ∧ f = u.emission.pop.1 ∧ t = u.pop := by
  rw [run_framed] at h
  rcases hx : x env s.push with ⟨_ | b, u⟩ <;> rw [hx] at h <;> cases h
  exact ⟨u, rfl, rfl, rfl⟩

theorem State.note_nil (s : State) : s.note [] = s := by
  rw [State.note, Memory.note, List.append_nil]

theorem State.note_note (s : State) (ds es : List Diagnostic) :
    (s.note ds).note es = s.note (ds ++ es) := by
  simp only [State.note, Memory.note, List.append_assoc]

theorem run_freshName (hint : String) (s : State) :
    freshName hint env s = (.ok (s.memory.names.fresh hint).1,
      s.withNames (s.memory.names.fresh hint).2) := rfl

theorem run_nameOf (hint : String) (id : ExprId) (s : State) :
    nameOf hint id env s = (.ok (s.memory.names.named hint id.text).1,
      s.withNames (s.memory.names.named hint id.text).2) := rfl

theorem run_firstTime (id : ExprId) (s : State) :
    firstTime id env s =
      if s.memory.isGenerated id then (.ok false, s)
      else (.ok true, s.mark id) := by
  unfold firstTime
  show (Except.ok (if _ then _ else _ : Bool × State).1, (if _ then _ else _ : Bool × State).2) = _
  split <;> rfl

theorem bind_of_pure {f : α → LowerM β} (h : x env = (pure a : LowerM α) env) :
    (x >>= f) env = f a env := by
  funext s
  rw [run_bind, h, run_pure]

theorem resolve_of_ok {f : Program → Except LowerError α} (h : f env.program = .ok a) :
    resolve f env = (pure a : LowerM α) env := by
  have hread : (read : LowerM Env) env = (pure env : LowerM Env) env := rfl
  rw [resolve, bind_of_pure hread, h]

theorem resolve_of_error {f : Program → Except LowerError α} {e : LowerError}
    (h : f env.program = .error e) : resolve f env = (throw e : LowerM α) env := by
  have hread : (read : LowerM Env) env = (pure env : LowerM Env) env := rfl
  rw [resolve, bind_of_pure hread, h]

theorem look_of_ok (h : f env.program = .ok a) : look f env = (pure a : LowerM α) env :=
  resolve_of_ok (by rw [h]; rfl)

theorem look_of_error {e : ProgramError} (h : f env.program = .error e) :
    look f env = (throw (.program e) : LowerM α) env :=
  resolve_of_error (by rw [h]; rfl)

theorem Returns.of_pure {b : α} (h : Returns env (pure a : LowerM α) b) : a = b := by
  obtain ⟨s, s', hs⟩ := h
  cases hs
  rfl

theorem Returns.of_bind {f : α → LowerM β} {b : β} (h : Returns env (x >>= f) b) :
    ∃ a, Returns env x a ∧ Returns env (f a) b := by
  obtain ⟨s, s', hs⟩ := h
  obtain ⟨a, t, ht, hs⟩ := exists_of_bind hs
  exact ⟨a, ⟨s, t, ht⟩, ⟨t, s', hs⟩⟩

theorem Returns.of_look (h : Returns env (look f) a) : f env.program = .ok a := by
  obtain ⟨s, s', hs⟩ := h
  cases hf : f env.program with
  | ok b => rw [look_of_ok hf] at hs; cases hs; rfl
  | error e => rw [look_of_error hf] at hs; cases hs

theorem Returns.of_ask {view : Program → α} (h : Returns env (ask view) a) :
    view env.program = a := by
  obtain ⟨s, t, h⟩ := h
  exact Except.ok.inj (congrArg Prod.fst h)

theorem Returns.of_resolve {f : Program → Except LowerError α} (h : Returns env (resolve f) a) :
    f env.program = .ok a := by
  obtain ⟨s, t, h⟩ := h
  cases hf : f env.program with
  | ok b => rw [resolve_of_ok hf] at h; cases h; rfl
  | error e => rw [resolve_of_error hf] at h; cases h

theorem Returns.of_mapM {f : α → LowerM β} {l : List α} {bs : List β}
    (h : Returns env (l.mapM f) bs) : ∀ b ∈ bs, ∃ a ∈ l, Returns env (f a) b := by
  induction l generalizing bs with
  | nil =>
    rw [List.mapM_nil] at h
    rw [← h.of_pure]
    exact nofun
  | cons a l ih =>
    rw [List.mapM_cons] at h
    obtain ⟨b, hb, h⟩ := h.of_bind
    obtain ⟨rest, hrest, h⟩ := h.of_bind
    rw [← h.of_pure, List.forall_mem_cons]
    refine ⟨⟨a, .head l, hb⟩, fun c hc => ?_⟩
    obtain ⟨d, hd, hret⟩ := ih hrest c hc
    exact ⟨d, .tail a hd, hret⟩

/-- What is found out in front of an action is there, or the action fails. -/
theorem resolve_cases (g : Program → Except LowerError α) (f : α → LowerM β) :
    (∃ a, g env.program = .ok a ∧ (resolve g >>= f) env = f a env) ∨
      ∃ e, (resolve g >>= f) env = (throw e : LowerM β) env := by
  cases h : g env.program with
  | ok a => exact .inl ⟨a, rfl, bind_of_pure (resolve_of_ok h)⟩
  | error e =>
    refine .inr ⟨e, funext fun s => ?_⟩
    rw [run_bind, resolve_of_error h, run_throw, run_throw]

theorem look_cases (g : Program → Except ProgramError α) (f : α → LowerM β) :
    (∃ a, g env.program = .ok a ∧ (look g >>= f) env = f a env) ∨
      ∃ e, (look g >>= f) env = (throw e : LowerM β) env := by
  refine (resolve_cases _ f).imp_left fun ⟨a, ha, h⟩ => ⟨a, ?_, h⟩
  cases hg : g env.program with
  | ok b => rw [hg] at ha; cases ha; rfl
  | error e => rw [hg] at ha; cases ha

/-- Whatever the action returns has the property. -/
def Results (env : Env) (P : α → Prop) (x : LowerM α) : Prop := ∀ a, Returns env x a → P a

namespace Results

variable {P : α → Prop} {Q : β → Prop}

theorem pure {a : α} (h : P a) : Results env P (Pure.pure a) := fun _ ha => ha.of_pure ▸ h

theorem throw {e : LowerError} : Results env P (MonadExcept.throw e) := by
  rintro a ⟨s, t, h⟩
  cases h

theorem bind {x : LowerM α} {f : α → LowerM β}
    (hf : ∀ a, Returns env x a → Results env Q (f a)) : Results env Q (x >>= f) := by
  intro b h
  obtain ⟨a, ha, hb⟩ := h.of_bind
  exact hf a ha b hb

end Results

/-- The action keeps the invariant where it holds, and what it returns then has the property. -/
structure Maintains (env : Env) (I : State → Prop) (P : α → Prop) (x : LowerM α) : Prop where
  run : ∀ {s a t}, x env s = (.ok a, t) → I s → I t ∧ P a

namespace Maintains

variable {I : State → Prop} {P : α → Prop} {Q : β → Prop}

theorem pure {a : α} (h : P a) : Maintains env I P (Pure.pure a) where
  run hrun hs := by
    cases hrun
    exact ⟨hs, h⟩

theorem bind {x : LowerM α} {f : α → LowerM β} (hx : Maintains env I P x)
    (hf : ∀ a, Returns env x a → P a → Maintains env I Q (f a)) : Maintains env I Q (x >>= f) where
  run hrun hs := by
    obtain ⟨a, u, hu, hrun⟩ := exists_of_bind hrun
    obtain ⟨hu', ha⟩ := hx.run hu hs
    exact (hf a ⟨_, u, hu⟩ ha).run hrun hu'

theorem inEnv {x y : LowerM α} (h : x env = y env) (hy : Maintains env I P y) :
    Maintains env I P x := ⟨fun hrun => hy.run (h ▸ hrun)⟩

theorem throw {e : LowerError} : Maintains env I P (MonadExcept.throw e : LowerM α) := ⟨nofun⟩

end Maintains

end Run

namespace Licence

structure Strict (L : Licence) (env env' : Env) : Prop extends env.Resembles env' where
  strict : L.strict

/-- The programs are well formed as far as they are the same, or there is but one environment, a
fault of the program may show and any expression be entered. -/
def Suits (L : Licence) (env env' : Env) : Prop :=
  L.Strict env env' ∨ env' = env ∧ (∀ id, L.enters id) ∧ ∀ e, L.fails (.program e)

namespace Suits

variable {α : Type} {L : Licence} {env env' : Env} (hL : L.Suits env env')

include hL

/-- What is read is the same in both environments if it is so in those that resemble each other. -/
theorem same {f : Env → α} (h : L.Strict env env' → f env' = f env) : f env' = f env := by
  rcases hL with wf | ⟨rfl, -⟩
  · exact h wf
  · rfl

theorem sameText {ty : Ty} (h : L.Strict env env' → env.program.InRange ty) :
    SameText env env' ty := fun form =>
  hL.same (f := fun e => ty.render e.toTypeScope form) fun wf => wf.sameText ty (h wf) form

theorem grows : env.program.ExtendsTo env'.program := by
  rcases hL with wf | ⟨rfl, -⟩
  · exact wf.program
  · exact .refl _

theorem enters_id {id : ExprId} {e : Expr} (he : env.At id e)
    (h : L.enters id) : L.enters e.id := by
  rcases hL with wf | ⟨-, hall, -⟩
  · rw [wf.id_eq he]; exact h
  · exact hall _

end Suits

/-- The expression may be entered, and is there. -/
structure Allows (L : Licence) (env env' : Env) (id : ExprId) : Prop where
  enters : L.enters id
  there : L.Strict env env' → ∃ e, env.At id e

theorem allows_part {L : Licence} {env env' : Env} {id c : ExprId} {e : Expr}
    (he : env.At id e) (hc : e.node.Mentions c) (h : L.enters c) :
    L.Allows env env' c := ⟨h, fun wf => wf.exists_part he hc⟩

end Licence

namespace InStep

variable {α β : Type} {env env' : Env} {L : Licence} {r₁ r₂ : Recur}

/-! ### What runs in step comes to the same -/

variable {x y : LowerM α} {f g : α → LowerM β} {ty : Ty}

/-- Actions in step do the same if the nested expressions that they enter do. -/
theorem run_eq (h : InStep env env' L r₁ r₂ x y)
    (hr : ∀ id, L.enters id → ∀ mode, r₁ id mode env = r₂ id mode env') : x env = y env' := by
  induction h with
  | bind _ _ ihx ihf =>
    funext s
    rw [run_bind, run_bind, ← ihx]
    split
    · rename_i a s' hs
      rw [ihf a ⟨s, s', hs⟩]
    · rfl
  | framed _ _ ih => unfold Lower.framed; rw [ih]
  | enter h mode => exact hr _ h mode
  | inEnv hx hy _ ih => rw [hx, hy, ih]
  | _ => rfl

/-- An error comes from the licence, or from a nested expression that is entered. -/
theorem error_of_run (h : InStep env env' L r₁ r₂ x y) {P : LowerError → Prop}
    (hr : ∀ id, L.enters id → ∀ mode s e s', r₁ id mode env s = (.error e, s') → P e)
    (hf : ∀ e, L.fails e → P e) : ∀ s e s', x env s = (.error e, s') → P e := by
  induction h with
  | bind _ _ ihx ihf =>
    intro s e s' hs
    rw [run_bind] at hs
    split at hs
    · rename_i a t ht
      exact ihf a ⟨s, t, ht⟩ t e s' hs
    · rename_i e' t ht
      cases hs
      exact ihx s e _ ht
  | @framed _ x _ _ _ ih =>
    intro s e s' hs
    rw [run_framed] at hs
    cases hx : x env s.push with
    | mk result t =>
      rw [hx] at hs
      cases result with
      | ok a => cases hs
      | error e' => cases hs; exact ih _ _ _ hx
  | throw h => intro s e s' hs; cases hs; exact hf _ h
  | enter h mode => exact hr _ h mode
  | inEnv hx _ _ ih => rw [hx]; exact ih
  | _ => intro s e s' hs; cases hs

/-! ### Reading the program -/

theorem of_pure {a : α} (hx : x env = (Pure.pure a : LowerM α) env)
    (hy : y env' = (Pure.pure a : LowerM α) env') : InStep env env' L r₁ r₂ x y :=
  inEnv hx hy (pure a)

/-- What is only read is known beforehand. -/
theorem known {a b : α} (hx : x env = (Pure.pure a : LowerM α) env)
    (hy : x env' = (Pure.pure b : LowerM α) env') (k : InStep env env' L r₁ r₂ (f a) (g b)) :
    InStep env env' L r₁ r₂ (x >>= f) (x >>= g) :=
  inEnv (bind_of_pure hx) (bind_of_pure hy) k

theorem ask {view : Program → α} (h : view env'.program = view env.program)
    (k : InStep env env' L r₁ r₂ (f (view env.program)) (g (view env.program))) :
    InStep env env' L r₁ r₂ (Lower.ask view >>= f) (Lower.ask view >>= g) :=
  known rfl (h ▸ rfl) k

theorem config (hL : L.Suits env env') {f g : Config → LowerM β}
    (k : ∀ on, InStep env env' L r₁ r₂ (f env.config) (g (env.config.tracing on))) :
    InStep env env' L r₁ r₂ (Lower.config >>= f) (Lower.config >>= g) := by
  obtain ⟨on, hon⟩ : ∃ on, env'.config = env.config.tracing on := by
    rcases hL with wf | ⟨rfl, -⟩
    · exact wf.config
    · exact ⟨_, rfl⟩
  exact known (b := env.config.tracing on) rfl (hon ▸ rfl) (k on)

theorem traces (h : env.TracesLike env') {f g : Bool → LowerM β}
    (k : ∀ b, InStep env env' L r₁ r₂ (f b) (g b)) :
    InStep env env' L r₁ r₂ (Lower.traces >>= f) (Lower.traces >>= g) := by
  have hsame : env'.config.emitDebugTraces = env.config.emitDebugTraces := h
  exact known (a := env.config.emitDebugTraces) rfl (hsame ▸ rfl) (k _)

theorem isLocal (hL : L.Suits env env') (id : DeclId) {f g : Bool → LowerM β}
    (k : ∀ b, InStep env env' L r₁ r₂ (f b) (g b)) :
    InStep env env' L r₁ r₂ (Lower.isLocal id >>= f) (Lower.isLocal id >>= g) :=
  known (a := env.block.any fun block => env.program.isLocalOf block id) rfl
    (hL.same (f := fun e => e.block.any fun block => e.program.isLocalOf block id)
      (·.isLocal id) ▸ rfl) (k _)

theorem throw_bind {e : LowerError} (h : L.fails e)
    (hx : x env = (MonadExcept.throw e : LowerM α) env)
    (hy : y env' = (MonadExcept.throw e : LowerM α) env') :
    InStep env env' L r₁ r₂ (x >>= f) (y >>= g) := by
  have hleft : (x >>= f) env = (MonadExcept.throw e : LowerM β) env := by
    funext s
    rw [run_bind, hx, run_throw, run_throw]
  have hright : (y >>= g) env' = (MonadExcept.throw e : LowerM β) env' := by
    funext s
    rw [run_bind, hy, run_throw, run_throw]
  exact inEnv hleft hright (throw h)

/-- A lookup that succeeds in a well-formed program, and finds the same in a larger one. -/
theorem look {f : Program → Except ProgramError α} {g' : α → LowerM β} (hL : L.Suits env env')
    (hok : L.Strict env env' → ∃ a, f env.program = .ok a)
    (hmono : env.program.ExtendsTo env'.program → ∀ {a}, f env.program = .ok a → f env'.program =
      .ok a) (k : ∀ a, f env.program = .ok a → InStep env env' L r₁ r₂ (g a) (g' a)) :
    InStep env env' L r₁ r₂ (Lower.look f >>= g) (Lower.look f >>= g') := by
  cases h : f env.program with
  | ok a => exact known (look_of_ok h) (look_of_ok (hmono hL.grows h)) (k a h)
  | error e =>
    rcases hL with wf | ⟨rfl, -, hfail⟩
    · obtain ⟨a, ha⟩ := hok wf
      rw [h] at ha; cases ha
    · exact throw_bind (hfail e) (look_of_error h) (look_of_error h)

theorem expr (hL : L.Suits env env') {id : ExprId} {g g' : Expr → LowerM β}
    (hok : L.Strict env env' → ∃ e, env.At id e)
    (k : ∀ e, env.At id e → InStep env env' L r₁ r₂ (g e) (g' e)) :
    InStep env env' L r₁ r₂ (Lower.look (·.expr id) >>= g) (Lower.look (·.expr id) >>= g') :=
  look hL hok (·.expr) k

theorem header (hL : L.Suits env env') {id : HeaderId} {g g' : HeaderInstance → LowerM β}
    (hok : L.Strict env env' → ∃ i, env.program.header id = .ok i)
    (k : ∀ i, InStep env env' L r₁ r₂ (g i) (g' i)) :
    InStep env env' L r₁ r₂ (Lower.look (·.header id) >>= g) (Lower.look (·.header id) >>= g') :=
  look hL hok (·.header) fun i _ => k i

theorem resolve {f : Program → Except LowerError α} {g' : α → LowerM β}
    (h : f env'.program = f env.program) (hfail : ∀ e, f env.program = .error e → L.fails e)
    (k : ∀ a, f env.program = .ok a → InStep env env' L r₁ r₂ (g a) (g' a)) :
    InStep env env' L r₁ r₂ (Lower.resolve f >>= g) (Lower.resolve f >>= g') := by
  cases hf : f env.program with
  | ok a => exact known (resolve_of_ok hf) (resolve_of_ok (h.trans hf)) (k a hf)
  | error e =>
    exact throw_bind (hfail e hf) (resolve_of_error hf) (resolve_of_error (h.trans hf))

/-! ### Derived operations -/

theorem report (category : Category) (stage message : String) :
    InStep env env' L r₁ r₂ (Lower.report category stage message)
      (Lower.report category stage message) :=
  note fun h => nomatch List.mem_singleton.1 h

theorem warn (stage message : String) (h : missingLock.stage ≠ stage := by decide) :
    InStep env env' L r₁ r₂ (Lower.warn stage message) (Lower.warn stage message) :=
  note fun hmem => (h (congrArg Diagnostic.stage (List.mem_singleton.1 hmem))).elim

theorem typeTextIn (form : TypeForm) (h : SameText env env' ty) :
    InStep env env' L r₁ r₂ (Lower.typeTextIn form ty) (Lower.typeTextIn form ty) := by
  refine known (a := env) (b := env') rfl rfl ?_
  rw [h form]
  refine bind (note fun hmem => ?_) fun _ _ => pure _
  exact nomatch (Ty.isTextError_of_mem_notes form ty _ hmem).1

theorem typeText (h : SameText env env' ty) :
    InStep env env' L r₁ r₂ (Lower.typeText ty) (Lower.typeText ty) := typeTextIn .parameter h

theorem declaredText (resolveNames : Bool) (h : SameText env env' ty) (name : String) :
    InStep env env' L r₁ r₂ (Lower.declaredText resolveNames ty name)
      (Lower.declaredText resolveNames ty name) :=
  bind (typeTextIn _ h) fun _ _ => pure _

theorem mapM {l : List α} (h : ∀ a ∈ l, InStep env env' L r₁ r₂ (f a) (g a)) :
    InStep env env' L r₁ r₂ (l.mapM f) (l.mapM g) := by
  induction l with
  | nil => simp only [List.mapM_nil]; exact pure _
  | cons a l ih =>
    simp only [List.mapM_cons]
    refine bind (h a (.head l)) fun _ _ => bind (ih fun b hb => h b (.tail a hb)) fun _ _ => pure _

theorem forM {f g : α → LowerM Unit} {l : List α}
    (h : ∀ a ∈ l, InStep env env' L r₁ r₂ (f a) (g a)) :
    InStep env env' L r₁ r₂ (l.forM f) (l.forM g) := by
  induction l with
  | nil => exact pure _
  | cons a l ih =>
    exact bind (h a (.head l)) fun _ _ => ih fun b hb => h b (.tail a hb)

end InStep

end PacketC.Lower
