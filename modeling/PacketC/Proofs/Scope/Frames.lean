import PacketC.Proofs.Scope.Outline
import PacketC.Proofs.Scope.Tracks

/-! One frame from where it is opened to where its code is put around the statement. A statement
starts in an empty frame; its expressions keep the name in order; a name of the statement itself is
declared in front of it or by its first line. A frame that is closed leaves the one around it as it
was. -/

namespace PacketC.Lower

open Code

/-! ### The life of a frame -/

/-- No code has been put around the statement yet. -/
structure Opened (s : State) : Prop where
  current : s.emission.current = .empty
  supply : ∃ done, s.memory.names.Records done

/-- The code is ordered, and the condition holds. -/
structure Steady (n : String) (C : Prop → Prop) (s : State) : Prop extends Ordered n s where
  known : Known (Declared n s) C

/-- The name is kept in order, and the condition holds. -/
structure Tracked (p : Program) (n : String) (C : Prop → Prop) (s : State) : Prop extends
    Inv p n s where
  known : Known (Declared n s) C

/-- The name `m` has been handed out, and there is no declaration of it. -/
structure Coined (n : String) (C : Prop → Prop) (m : String) (s : State) : Prop extends
    Steady n C s where
  used : m ∈ s.memory.names.used
  fresh : m = n → ¬ Declared n s

/-- With the code of the frame around it, the script declares the name before it uses it. -/
structure Settled (n : String) (script : Script) (s : State) : Prop where
  wellScoped : WellScoped n (enframed s.emission.current.pre script s.emission.current.post)
  supply : ∃ done, s.memory.names.Records done

section States

variable {p : Program} {n m text : String} {C : Prop → Prop} {s : State} {script : Script}

theorem Opened.not_declared (h : Opened s) : ¬ Declared n s := by
  rintro ⟨c, hc, _⟩
  rw [h.current] at hc
  cases hc

theorem Opened.ordered (h : Opened s) : Ordered n s where
  pre := ⟨false, by rw [h.current]; exact .nil false⟩
  post := by rw [h.current]; exact nofun
  supply := h.supply

theorem Opened.tracked (h : Opened s) : Tracked p n (fun _ => True) s where
  toOrdered := h.ordered
  owned hd := absurd hd h.not_declared
  tied _ _ _ c hc hd := absurd ⟨c, hc, hd⟩ h.not_declared
  known _ _ := trivial

theorem Opened.coined (h : Opened s) (hm : m ∈ s.memory.names.used) :
    Coined n (fun _ => True) m s := ⟨⟨h.ordered, fun _ _ => trivial⟩, hm, fun _ => h.not_declared⟩

theorem Tracked.steady (h : Tracked p n C s) : Steady n C s := ⟨h.toOrdered, h.known⟩

/-- What a script declares stays so behind the statement. -/
theorem Ordered.settled (h : Ordered n s)
    (hscript : ∀ d, (d = true ↔ Declared n s) → ∃ e, (d = true → e = true) ∧ Scoped n d script e) :
    Settled n script s := by
  obtain ⟨d, hiff, hd⟩ := h.declared_iff
  obtain ⟨e, hmono, he⟩ := hscript d hiff
  refine ⟨⟨e, ?_⟩, h.supply⟩
  refine (hd.append he).append (.pieces fun c hc => (h.post c hc).mono fun hdeclared => ?_)
  exact hmono (hiff.2 hdeclared)

theorem Ordered.settled_of_allowed (h : Ordered n s) (htext : Allowed n (Declared n s) text) :
    Settled n [.code text] s :=
  h.settled fun d hd => ⟨d, id, .of_allowed (htext.mono hd.2)⟩

/-- A text can declare a name of its own. -/
theorem Coined.settled (h : Coined n C m s) (hclear : Clear n s)
    (htext : Announces n (Declared n s) m text) : Settled n [.code text] s := by
  by_cases hmn : m = n
  · have hnot := h.fresh hmn
    by_cases hword : IsWord n
    · refine h.toOrdered.settled fun d hd => ⟨true, fun _ => rfl, ?_⟩
      rw [Bool.eq_false_iff.2 fun heq => hnot (hd.1 heq)]
      exact .of_declares (htext.declares hmn hnot hword)
    · exact h.toOrdered.settled_of_allowed (.of_not_isWord hword)
  · exact h.toOrdered.settled_of_allowed (htext.allowed hmn (hclear.others m h.used hmn))

end States

/-! ### Triples -/

/-- Where it succeeds, the action leads from a state with `P` to one with `Q`, if the name that is
followed is not part of other names there. -/
structure Leads (env : Env) (n : String) {α : Type} (P : State → Prop) (x : LowerM α)
    (Q : α → State → Prop) : Prop where
  grows : ∀ {s a t}, x env s = (.ok a, t) → Extends s t
  run : ∀ {s a t}, x env s = (.ok a, t) → P s → Clear n t → Q a t

namespace Leads

variable {α β : Type} {env : Env} {n : String} {P : State → Prop} {Q : α → State → Prop}
  {R : β → State → Prop} {C : Prop → Prop} {D : α → Prop → Prop} {x : LowerM α} {f : α → LowerM β}
  {hint : String}

theorem bind (hx : Leads env n P x Q) (hf : ∀ a, Returns env x a → Leads env n (Q a) (f a) R) :
    Leads env n P (x >>= f) R where
  grows h := by
    obtain ⟨a, u, hu, h⟩ := exists_of_bind h
    exact (hx.grows hu).trans ((hf a ⟨_, _, hu⟩).grows h)
  run {s b t} h hs hclear := by
    obtain ⟨a, u, hu, h⟩ := exists_of_bind h
    have hfa := hf a ⟨s, u, hu⟩
    exact hfa.run h (hx.run hu hs (hclear.of_extends (hfa.grows h))) hclear

theorem before {P' : State → Prop} (hx : Leads env n P x Q) (h : ∀ s, P' s → P s) :
    Leads env n P' x Q :=
  ⟨hx.grows, fun hrun hs hclear => hx.run hrun (h _ hs) hclear⟩

theorem after {Q' : α → State → Prop} (hx : Leads env n P x Q) (h : ∀ a s, Q a s → Q' a s) :
    Leads env n P x Q' :=
  ⟨hx.grows, fun hrun hs hclear => h _ _ (hx.run hrun hs hclear)⟩

theorem frame {φ : Prop} (hx : Leads env n P x Q) :
    Leads env n (fun s => P s ∧ φ) x fun a s => Q a s ∧ φ :=
  ⟨hx.grows, fun hrun hs hclear => ⟨hx.run hrun hs.1 hclear, hs.2⟩⟩

theorem pure {a : α} (h : ∀ s, P s → Clear n s → Q a s) : Leads env n P (Pure.pure a) Q :=
  ⟨fun h => by cases h; exact .refl _, fun hrun hs hclear => by cases hrun; exact h _ hs hclear⟩

theorem of_tracks (hx : Tracks env n C x D) :
    Leads env n (Tracked env.program n C) x fun a =>
      Tracked env.program n fun w => D a w ∧ C w where
  grows := hx.grows
  run h hs hclear := by
    obtain ⟨hinv, hknown, hstep⟩ := hx.run h hs.toInv hs.known hclear
    exact { hinv with known := hknown.and (hs.known.mono hstep.declared) }

/-- In an empty frame the name is in order. -/
theorem opened (hx : Leads env n (Tracked env.program n fun _ => True) x Q) :
    Leads env n Opened x Q := hx.before fun _ hs => hs.tracked

/-- A text from expressions that keep the name in order. -/
theorem of_text {x : LowerM String}
    (hx : Tracks env n (fun _ => True) x fun text w => Allowed n w text) :
    Leads env n Opened x fun text => Settled n [.code text] :=
  (of_tracks hx).opened.after fun _ _ hs => hs.toOrdered.settled_of_allowed hs.known.here.1

/-! ### Reading the program -/

theorem inEnv {y : LowerM α} (h : x env = y env) (hy : Leads env n P y Q) : Leads env n P x Q :=
  ⟨fun hx => hy.grows (h ▸ hx), fun hx => hy.run (h ▸ hx)⟩

theorem known {a : α} (h : x env = (Pure.pure a : LowerM α) env) (k : Leads env n P (f a) R) :
    Leads env n P (x >>= f) R := inEnv (bind_of_pure h) k

theorem throw {e : LowerError} : Leads env n P (MonadExcept.throw e : LowerM α) Q :=
  ⟨nofun, nofun⟩

theorem look {g : Program → Except ProgramError α}
    (k : ∀ a, g env.program = .ok a → Leads env n P (f a) R) :
    Leads env n P (Lower.look g >>= f) R := by
  rcases look_cases g f with ⟨a, ha, h⟩ | ⟨e, h⟩
  · exact inEnv h (k a ha)
  · exact inEnv h throw

theorem ask (view : Program → α) (k : Leads env n P (f (view env.program)) R) :
    Leads env n P (Lower.ask view >>= f) R :=
  known rfl k

theorem config {f : Config → LowerM β} (k : Leads env n P (f env.config) R) :
    Leads env n P (Lower.config >>= f) R := known rfl k

theorem traces {f : Bool → LowerM β} (k : ∀ b, Leads env n P (f b) R) :
    Leads env n P (Lower.traces >>= f) R :=
  known (a := env.config.emitDebugTraces) rfl (k _)

theorem isLocal (id : DeclId) {f : Bool → LowerM β} (k : ∀ b, Leads env n P (f b) R) :
    Leads env n P (Lower.isLocal id >>= f) R :=
  known (a := env.block.any fun block => env.program.isLocalOf block id) rfl (k _)

/-! ### Names of the statement itself -/

/-- A name for one use. -/
theorem freshName {k : String → LowerM β} (hk : ∀ m, Leads env n (Coined n C m) (k m) R) :
    Leads env n (Tracked env.program n C) (Lower.freshName hint >>= k) R := by
  refine bind (Q := Coined n C) ⟨fun h => ?_, fun {s m t} h hs _ => ?_⟩ fun m _ => hk m
  · rw [run_freshName] at h
    cases h
    exact .fresh _ hint
  · rw [run_freshName] at h
    cases h
    obtain ⟨done, hdone⟩ := hs.supply
    obtain ⟨hordered, hiff⟩ := hs.toOrdered.of_extends
      (t := s.withNames (s.memory.names.fresh hint).2) rfl ⟨_, hdone.fresh hint⟩
    refine ⟨⟨hordered, hs.known.mono hiff.2⟩, List.mem_cons_self .., ?_⟩
    rintro rfl hd
    exact s.memory.names.numbered_nextNumber_notMem hint (hs.owned (hiff.1 hd))

/-- The name of an expression, in an empty frame. -/
theorem nameOf {id : ExprId} {k : String → LowerM β}
    (hk : ∀ m, Leads env n (fun s => Opened s ∧ m ∈ s.memory.names.used) (k m) R) :
    Leads env n Opened (Lower.nameOf hint id >>= k) R := by
  refine bind (Q := fun m s => Opened s ∧ m ∈ s.memory.names.used)
    ⟨fun h => ?_, fun {s m t} h hs _ => ?_⟩ fun m _ => hk m
  · rw [run_nameOf] at h
    cases h
    exact .named _ hint id
  · rw [run_nameOf] at h
    cases h
    obtain ⟨done, hdone⟩ := hs.supply
    have hdone' := hdone.named hint id.text
    exact ⟨⟨hs.current, _, hdone'⟩, hdone'.mem_used (List.mem_cons_self ..)⟩

/-- The name of an expression that does not declare it otherwise, after an action. -/
theorem nameThen {id : ExprId} {k : String → α → LowerM β}
    (hissue : issue env.program hint id n = none) (hx : Tracks env n C x D)
    (hk : ∀ m a, Leads env n (Coined n (fun w => D a w ∧ C w) m) (k m a) R) :
    Leads env n (Tracked env.program n C)
      (do let m ← Lower.nameOf hint id; let a ← x; k m a) R := by
  -- the expression has the name, so there is no other declaration of it in the frame
  refine bind (Q := fun m s => Tracked env.program n C s ∧ m ∈ s.memory.names.used ∧
    s.memory.names.memo.lookup (hint, id.text) = some m)
    ⟨fun h => ?_, fun {s m t} h hs _ => ?_⟩ fun m _ => ?_
  · rw [run_nameOf] at h
    cases h
    exact .named _ hint id
  · rw [run_nameOf] at h
    cases h
    obtain ⟨done, hdone⟩ := hs.supply
    have hdone' := hdone.named hint id.text
    refine ⟨{ hs.toInv.of_extends (.named s hint id) rfl ⟨_, hdone'⟩ with known := hs.known },
      hdone'.mem_used (List.mem_cons_self ..), s.memory.names.lookup_named hint id.text⟩
  · refine bind (Q := fun a => Coined n (fun w => D a w ∧ C w) m)
      ⟨hx.grows, fun {s a t} h hs hclear => ?_⟩
      fun a _ => hk m a
    have ht := (of_tracks hx).run h hs.1 hclear
    have hext := (hx.grows h).names
    refine ⟨ht.steady, hext.used m hs.2.1, ?_⟩
    rintro rfl ⟨c, hc, hd⟩
    have hcode := ht.tied hint id (hext.kept _ _ hs.2.2) c hc hd
    rw [hissue] at hcode
    cases hcode

/-- The declaration of a name that was handed out. -/
theorem declare {m code : String} (hcode : ∀ {w}, C w → Announces n w m code) :
    Leads env n (Coined n C m) (Lower.hoist code) fun _ =>
      Steady n fun w => Allowed n w m ∧ C w where
  grows h := by
    cases h
    exact .prepend _ code
  run {s _ t} h hs hclear := by
    cases h
    obtain ⟨hordered, hself, hmono, _⟩ := hs.toOrdered.declare
      (hclear.of_extends (.prepend s code)) hs.used (hcode hs.known.here) fun hm hd =>
        absurd hd (hs.fresh hm)
    exact ⟨hordered, (Known.allowed hself).and (hs.known.mono hmono)⟩

theorem defer {code : String} (hcode : ∀ {w}, C w → Allowed n w code) :
    Leads env n (Steady n C) (Lower.defer code) fun _ => Steady n C where
  grows h := by
    cases h
    exact .of_names_eq rfl rfl
  run {s _ t} h hs _ := by
    cases h
    exact ⟨hs.toOrdered.append (hcode hs.known.here), hs.known⟩

end Leads

/-! ### Nested frames -/

variable {env : Env} {n : String} {C : Prop → Prop}

/-- The script is in order wherever it stands. -/
def Nested (n : String) (script : Script) : Prop := ∀ d, Scoped n d script d

theorem pop_of_outer {e e' : Emission} (h : e'.outer = e.push.outer) :
    e'.pop = (e'.current, e) := by
  rw [Emission.pop, h]
  rfl

/-- What an action in a frame of its own has done. -/
theorem exists_of_enclosedScript {x : LowerM Outlined}
    (hx : ∀ {s o t}, x env s = (.ok o, t) → t.emission.outer = s.emission.outer) {s t : State}
    {o : Outlined} (h : enclosedScript x env s = (.ok o, t)) : ∃ q u,
      x env s.push = (.ok q, u) ∧ t = { u with emission := s.emission } ∧
        o.2 = nestled (enframed u.emission.current.pre q.2 u.emission.current.post) := by
  obtain ⟨⟨⟨text, script⟩, frame⟩, v, hv, h⟩ := exists_of_bind h
  cases h
  obtain ⟨u, hu, rfl, rfl⟩ := exists_of_framed hv
  rw [State.pop, pop_of_outer (hx hu)]
  exact ⟨(text, script), u, hu, rfl, rfl⟩

/-- Closing a frame leaves the one around it as it was. -/
theorem enclosedScript_leads {x : LowerM Outlined}
    (hx : Leads env n Opened x fun o => Settled n o.2) :
    Leads env n (Tracked env.program n C) (enclosedScript x) fun o s =>
      Tracked env.program n C s ∧ Nested n o.2 := by
  have hext : ∀ {s o t}, enclosedScript x env s = (.ok o, t) → Extends s t := by
    intro s o t h
    obtain ⟨q, u, hu, rfl, _⟩ := exists_of_enclosedScript (fun hs => (hx.grows hs).outer) h
    exact ⟨(hx.grows hu).names, rfl, (hx.grows hu).numbered⟩
  refine ⟨hext, fun {s o t} h hs hclear => ?_⟩
  have hst := hext h
  obtain ⟨q, u, hu, rfl, ho⟩ := exists_of_enclosedScript (fun hs => (hx.grows hs).outer) h
  obtain ⟨⟨d, hd⟩, hsupply⟩ := hx.run hu ⟨rfl, hs.supply⟩ ⟨hclear.others, hclear.buffers⟩
  refine ⟨{ hs.toInv.of_extends hst rfl hsupply with known := hs.known }, fun e => ?_⟩
  rw [ho]
  exact .nestled hd

end PacketC.Lower
