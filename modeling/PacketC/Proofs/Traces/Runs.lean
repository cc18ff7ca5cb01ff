import PacketC.Proofs.Lower.Twins
import PacketC.Proofs.Traces.Erasure
import PacketC.Proofs.Traces.OneLine

/-! Two runs that differ in whether traces are asked for. They remember the same, and the code that
they have moved out of the bodies is the same up to traces. Most of the generator does not ask for
traces, and there what is known of its steps and of what it reads is enough; the rules here take
apart the actions that do ask. -/

namespace PacketC

namespace SameFrame

variable {f g : Frame}

theorem none : SameFrame .empty .empty := ⟨rfl, .rfl, rfl, nofun, nofun, nofun⟩

theorem symm (h : SameFrame f g) : SameFrame g f :=
  ⟨h.pre.symm, h.empty.symm, h.post.symm, h.right, h.left, h.post ▸ h.after⟩

end SameFrame

namespace Lower

variable {α β : Type} {env env' : Env} {P : Prop} {s t : State} {code : String}

/-! ### States -/

/-- Code that is nothing but traces does not show. -/
theorem filter_prepend_of_isSilent (h : isSilent code = true) (e : Emission) :
    (e.prepend code).current.pre.filter (!isSilent ·) = e.current.pre.filter (!isSilent ·) := by
  unfold Emission.prepend
  split
  · rfl
  · simp [h]

/-- Whether other code is there already can be seen without the traces. -/
theorem filter_prepend (h : isSilent code = false) (e : Emission) :
    (e.prepend code).current.pre.filter (!isSilent ·) =
      let shown := e.current.pre.filter (!isSilent ·)
      if code ∈ shown then shown else shown ++ [code] := by
  have hmem : code ∈ e.current.pre.filter (!isSilent ·) ↔ code ∈ e.current.pre := by simp [h]
  simp only [hmem]
  unfold Emission.prepend
  split
  · rename_i hin
    rw [if_pos (List.contains_iff_mem.1 hin)]
  · rename_i hin
    rw [if_neg (mt List.contains_iff_mem.2 hin)]
    simp [h]

/-- The runs have the same memory, with the names in order, and the same code around the bodies up
to traces. After a start, there is code in front of the innermost body. -/
structure SameRun (P : Prop) (s t : State) : Prop where
  memory : s.memory = t.memory
  sound : s.memory.names.Sound
  current : SameFrame s.emission.current t.emission.current
  outer : List.Forall₂ SameFrame s.emission.outer t.emission.outer
  start : P → s.emission.current.pre ≠ []

namespace SameRun

theorem mono {Q : Prop} (h : SameRun P s t) (hPQ : Q → P) : SameRun Q s t :=
  ⟨h.memory, h.sound, h.current, h.outer, fun hq => h.start (hPQ hq)⟩

theorem symm (h : SameRun P s t) : SameRun P t s where
  memory := h.memory.symm
  sound := h.memory ▸ h.sound
  current := h.current.symm
  outer := h.outer.flip.imp fun _ _ hframe => hframe.symm
  start hp := mt h.current.empty.2 (h.start hp)

theorem ended_prepend {e : Emission} (h : ∀ c ∈ e.current.pre, Text.Ended c)
    (hcode : Text.Ended code) : ∀ c ∈ (e.prepend code).current.pre, Text.Ended c := by
  intro c hc
  unfold Emission.prepend at hc
  split at hc
  · exact h c hc
  · rcases List.mem_append.1 hc with hc | hc
    · exact h c hc
    · exact List.mem_singleton.1 hc ▸ hcode

/-- The same code goes in front of both bodies. -/
theorem hoist (h : SameRun P s t) (hcode : Text.Ended code) :
    SameRun True (s.prepend code) (t.prepend code) where
  memory := h.memory
  sound := h.sound
  current := by
    refine ⟨?_, ?_, ?_, ended_prepend h.current.left hcode, ended_prepend h.current.right hcode, ?_⟩
    · cases hsilent : isSilent code with
      | true =>
        rw [filter_prepend_of_isSilent hsilent, filter_prepend_of_isSilent hsilent, h.current.pre]
      | false => rw [filter_prepend hsilent, filter_prepend hsilent, h.current.pre]
    · exact iff_of_false (List.ne_nil_of_mem (mem_prepend ..))
        (List.ne_nil_of_mem (mem_prepend ..))
    · rw [post_prepend, post_prepend, h.current.post]
    · rw [post_prepend]
      exact h.current.after
  outer := by
    rw [outer_prepend, outer_prepend]
    exact h.outer
  start _ := List.ne_nil_of_mem (mem_prepend ..)

/-- A trace goes in front of one of the bodies, which has code in front of it already. -/
theorem trace (h : SameRun True s t) (hcode : Text.Ended code) (hsilent : isSilent code = true) :
    SameRun True (s.prepend code) t where
  memory := h.memory
  sound := h.sound
  current := by
    refine ⟨?_, ?_, ?_, ended_prepend h.current.left hcode, h.current.right, ?_⟩
    · rw [filter_prepend_of_isSilent hsilent, h.current.pre]
    · exact iff_of_false (List.ne_nil_of_mem (mem_prepend ..))
        (mt h.current.empty.2 (h.start trivial))
    · rw [post_prepend, h.current.post]
    · rw [post_prepend]
      exact h.current.after
  outer := by
    rw [outer_prepend]
    exact h.outer
  start _ := List.ne_nil_of_mem (mem_prepend ..)

theorem defer (h : SameRun P s t) (hcode : Text.Ended code) :
    SameRun P (s.append code) (t.append code) where
  memory := h.memory
  sound := h.sound
  current :=
    ⟨h.current.pre, h.current.empty, congrArg (· ++ [code]) h.current.post, h.current.left,
      h.current.right, List.forall_mem_append.2
        ⟨h.current.after, List.forall_mem_singleton.2 hcode⟩⟩
  outer := h.outer
  start := h.start

theorem push (h : SameRun P s t) :
    SameRun False s.push t.push :=
  ⟨h.memory, h.sound, .none, .cons h.current h.outer, False.elim⟩

/-- The innermost frames, and what is left without them. -/
theorem pop (h : SameRun P s t) : SameFrame s.emission.pop.1 t.emission.pop.1 ∧
    SameRun False s.pop t.pop := by
  unfold State.pop Emission.pop
  have houter := h.outer
  cases hs : s.emission.outer with
  | nil =>
    rw [hs] at houter
    rw [List.forall₂_nil_left_iff.1 houter]
    exact ⟨h.current, h.memory, h.sound, .none, .nil, False.elim⟩
  | cons frame rest =>
    rw [hs] at houter
    obtain ⟨frame', rest', hframe, hrest, ht⟩ := List.forall₂_cons_left_iff.1 houter
    rw [ht]
    exact ⟨h.current, h.memory, h.sound, hframe, hrest, False.elim⟩

end SameRun

/-- Whatever lowering does to both states, the runs stay the same up to traces. -/
theorem parallel_sameRun (p : Program) (P : Prop) : Parallel p (SameRun P) where
  memory_eq h := h.memory
  note h ds := ⟨congrArg (Memory.note ds) h.memory, h.sound, h.current, h.outer, h.start⟩
  names h hint _ names hnames := by
    refine ⟨congrArg (fun m : Memory => { m with names := names }) h.memory, ?_, h.current, h.outer,
      h.start⟩
    rcases hnames with rfl | ⟨id, rfl⟩
    · exact h.sound.fresh _
    · exact h.sound.named _ _
  mark h id := ⟨congrArg (fun m : Memory => { m with generated := id :: m.generated }) h.memory,
    h.sound, h.current, h.outer, h.start⟩
  hoist h _ hcode := (h.hoist hcode).mono fun _ => trivial
  defer h _ hcode := h.defer hcode

/-! ### Traces alone -/

/-- Once the runs have started, the one that does this stays the same as the other, which does
nothing. -/
structure OnlyTraces (x : LowerM Unit) : Prop where
  run : ∀ env {s t}, SameRun True s t → ∃ s', x env s = (.ok (), s') ∧ SameRun True s' t

namespace OnlyTraces

theorem nothing : OnlyTraces (Pure.pure ()) := ⟨fun _ _ _ h => ⟨_, rfl, h⟩⟩

theorem hoist (hline : TraceLine code) (hcode : Text.Ended code) :
    OnlyTraces (Lower.hoist code) := ⟨fun _ _ _ h => ⟨_, rfl, h.trace hcode hline.isSilent⟩⟩

theorem seq {x y : LowerM Unit} (hx : OnlyTraces x) (hy : OnlyTraces y) : OnlyTraces (do x; y) where
  run env _ _ h := by
    obtain ⟨u, hu, h⟩ := hx.run env h
    obtain ⟨v, hv, h⟩ := hy.run env h
    exact ⟨v, by rw [run_bind, hu]; exact hv, h⟩

theorem forM {f : α → LowerM Unit} {l : List α} (h : ∀ a ∈ l, OnlyTraces (f a)) :
    OnlyTraces (l.forM f) := by
  induction l with
  | nil => exact nothing
  | cons a l ih => exact (h a (.head l)).seq (ih fun b hb => h b (.tail a hb))

end OnlyTraces

/-! ### Actions side by side -/

/-- The environment with traces or without. -/
def Env.tracing (on : Bool) (env : Env) : Env := { env with config := env.config.tracing on }

theorem Env.resembles_tracing (wf : env.program.WellFormed) (on : Bool) :
    env.Resembles (env.tracing on) := ⟨wf, .refl _, ⟨on, rfl⟩, rfl, fun _ => rfl, rfl⟩

namespace Twins

variable {V : α → α → Prop} {W : β → β → Prop} {R : State → State → Prop} {on : Bool}
  {x y : LowerM α} {f g f' : α → LowerM β} {l : List α}

theorem spells {Q : α → Prop} (h : Twins (SameRun P) Eq env env' x y) (hx : Spells env Q x) :
    Twins (SameRun P) (fun a b => a = b ∧ Q a) env env' x y := by
  intro s t hst
  have hend := h s t hst
  cases hs : x env s with
  | mk result u =>
    rw [hs] at hend
    generalize y env' t = o at hend ⊢
    cases hend with
    | ok hab hR => exact .ok ⟨hab, (hx.run hs hst.sound).2⟩ hR
    | error e hR => exact .error e hR

theorem bind_same {W : β → β → Prop} (hx : Twins R Eq env env' x y)
    (hf : ∀ a, Returns env x a → Twins R W env env' (f a) (g a)) :
    Twins R W env env' (x >>= f) (y >>= g) :=
  hx.bind fun a _ hab ha => hab ▸ hf a ha

theorem bind_spells {W : β → β → Prop} {Q : α → Prop} (hx : Twins (SameRun P) Eq env env' x y)
    (hQ : Spells env Q x)
    (hf : ∀ a, Returns env x a → Q a → Twins (SameRun P) W env env' (f a) (g a)) :
    Twins (SameRun P) W env env' (x >>= f) (y >>= g) :=
  (hx.spells hQ).bind fun a _ hab ha => hab.1 ▸ hf a ha hab.2

theorem fail {e : LowerError} :
    Twins R V env env' (MonadExcept.throw e : LowerM α) (MonadExcept.throw e) :=
  fun _ _ h => .error e h

theorem known {a b : α} (hx : x env = (Pure.pure a : LowerM α) env)
    (hy : x env' = (Pure.pure b : LowerM α) env') (k : Twins R W env env' (f a) (g b)) :
    Twins R W env env' (x >>= f) (x >>= g) :=
  of_env (bind_of_pure hx) (bind_of_pure hy) k

theorem resolve {g : Program → Except LowerError α}
    (k : ∀ a, g env.program = .ok a → Twins R W env (env.tracing on) (f a) (f' a)) :
    Twins R W env (env.tracing on) (Lower.resolve g >>= f) (Lower.resolve g >>= f') := by
  cases h : g env.program with
  | ok a => exact known (resolve_of_ok h) (resolve_of_ok h) (k a h)
  | error e =>
    have hother : Lower.resolve g (env.tracing on) =
        (MonadExcept.throw e : LowerM α) (env.tracing on) := resolve_of_error h
    intro s t hR
    rw [run_bind, run_bind, resolve_of_error h, hother]
    exact .error e hR

theorem look {g : Program → Except ProgramError α}
    (k : ∀ a, g env.program = .ok a → Twins R W env (env.tracing on) (f a) (f' a)) :
    Twins R W env (env.tracing on) (Lower.look g >>= f) (Lower.look g >>= f') := by
  refine resolve fun a ha => k a ?_
  cases h : g env.program with
  | ok b =>
    rw [h] at ha
    cases ha
    rfl
  | error e =>
    rw [h] at ha
    cases ha

theorem ask (view : Program → α)
    (k : Twins R W env (env.tracing on) (f (view env.program)) (f' (view env.program))) :
    Twins R W env (env.tracing on) (Lower.ask view >>= f) (Lower.ask view >>= f') :=
  known (a := view env.program) (b := view env.program) rfl rfl k

theorem config {f f' : Config → LowerM β}
    (k : Twins R W env (env.tracing on) (f env.config) (f' (env.config.tracing on))) :
    Twins R W env (env.tracing on) (Lower.config >>= f) (Lower.config >>= f') :=
  known (a := env.config) (b := env.config.tracing on) rfl rfl k

theorem asked {f f' : Bool → LowerM β}
    (k : ∀ b b', Twins R W env env' (f b) (f' b')) :
    Twins R W env env' (Lower.traces >>= f) (Lower.traces >>= f') :=
  known (a := env.config.emitDebugTraces) (b := env'.config.emitDebugTraces) rfl rfl (k _ _)

theorem mapM (h : ∀ a ∈ l, Twins R W env env' (f a) (g a)) :
    Twins R (List.Forall₂ W) env env' (l.mapM f) (l.mapM g) := by
  induction l with
  | nil =>
    rw [List.mapM_nil, List.mapM_nil]
    exact pure .nil
  | cons a l ih =>
    rw [List.mapM_cons, List.mapM_cons]
    refine bind (h a (.head l)) fun b b' hb _ => ?_
    refine bind (ih fun c hc => h c (.tail a hc)) fun bs bs' hbs _ => ?_
    exact pure (.cons hb hbs)

theorem mapM_same (h : ∀ a ∈ l, Twins R Eq env env' (f a) (g a)) :
    Twins R Eq env env' (l.mapM f) (l.mapM g) :=
  (mapM h).mono fun _ _ hall => List.forall₂_eq_eq_eq ▸ hall

theorem forM {f g : α → LowerM Unit} (h : ∀ a ∈ l, Twins R Eq env env' (f a) (g a)) :
    Twins R Eq env env' (l.forM f) (l.forM g) := by
  induction l with
  | nil => exact pure rfl
  | cons a l ih => exact bind (h a (.head l)) fun _ _ _ _ => ih fun b hb => h b (.tail a hb)

/-- Code in front of the body, after which traces make no difference. -/
theorem hoist_then (hcode : Text.Ended code) (k : Twins (SameRun True) V env env' x y) :
    Twins (SameRun P) V env env' (do Lower.hoist code; x) (do Lower.hoist code; y) := by
  intro s t h
  have hend := k _ _ (h.hoist hcode)
  show EndTwins _ _ (x env (s.prepend code)) (y env' (t.prepend code))
  generalize x env _ = o, y env' _ = o' at hend ⊢
  cases hend with
  | ok hV hR => exact .ok hV (hR.mono fun _ => trivial)
  | error e hR => exact .error e (hR.mono fun _ => trivial)

/-- Nothing but traces, if they are asked for. -/
theorem traces {x : LowerM Unit} (hx : OnlyTraces x) :
    Twins (SameRun True) Eq env env' (do if ← Lower.traces then x)
      (do if ← Lower.traces then x) := by
  refine asked fun b b' s t h => ?_
  have hleft : ∃ s', (if b then x else Pure.pure ()) env s = (.ok (), s') ∧ SameRun True s' t := by
    cases b with
    | false => exact ⟨s, rfl, h⟩
    | true => exact hx.run env h
  obtain ⟨s', hs, h⟩ := hleft
  have hright : ∃ t', (if b' then x else Pure.pure ()) env' t = (.ok (), t') ∧
      SameRun True t' s' := by
    cases b' with
    | false => exact ⟨t, rfl, h.symm⟩
    | true => exact hx.run env' h.symm
  obtain ⟨t', ht, h⟩ := hright
  rw [hs, ht]
  exact .ok rfl h.symm

/-- A body in a frame of its own; the frame comes out the same up to traces. -/
theorem framed (h : Twins (SameRun False) V env env' x y) :
    Twins (SameRun False) (fun q r => V q.1 r.1 ∧ SameFrame q.2 r.2) env env' (Lower.framed x)
      (Lower.framed y) := by
  intro s t hst
  have hend := h _ _ hst.push
  rw [run_framed, run_framed]
  generalize x env _ = o, y env' _ = o' at hend ⊢
  cases hend with
  | ok hV hR => exact .ok ⟨hV, hR.pop.1⟩ hR.pop.2
  | error e hR => exact .error e hR.pop.2

end Twins

/-- From runs that are the same up to traces, the action comes to related results with traces and
without. -/
abbrev Alike (P : Prop) (V : α → α → Prop) (env : Env) (on : Bool) (x : LowerM α) : Prop :=
  Twins (SameRun P) V env (env.tracing on) x x

end Lower

end PacketC
