import PacketC.Proofs.Lists.Assembly
import PacketC.Proofs.Lower.Confined
import PacketC.Proofs.Lower.Growth
import PacketC.Proofs.Scope.Tracks

/-! Actions that leave the buffer of a list alone until they assemble it. One list is watched. As
long as its buffer is not assembled in the innermost frame, no code of the frame and no text in hand
may mention the name; once it is, anything may. The rules are those of the monad, so an action is
judged by its parts, and what is shown of the texts in hand may be used only where the buffer is
missing. -/

namespace PacketC.Lower

open Code

/-- A list, a word to look out for, the code of the list's buffer, and the supply of names that the
run ends with. -/
structure Watch where
  list : ExprId
  word : String
  code : String
  final : NameSupply

namespace Watch

/-- What the name of the buffer is filed under. -/
def key (W : Watch) : String × String := ("buffer", W.list.text)

abbrev Clean (W : Watch) (text : String) : Prop := ¬ Mentions W.word text

/-- The word occurs in nothing but the name of the buffer, and the code is that of the buffer. -/
structure Fits (W : Watch) (s : TypeScope) : Prop extends Foreign s W.word where
  stem : ¬ "parser_state_".toList <+: W.word.toList
  node : ∃ e items, s.program.expr W.list = .ok e ∧ e.node = .list items
  sound : W.final.Sound
  others : ∀ m ∈ W.final.used, W.final.memo.lookup W.key ≠ some m → W.Clean m
  code : ∀ name, W.final.memo.lookup W.key = some name →
    s.program.assembly W.list name = some W.code

/-- The buffer is assembled in the innermost frame, before anything there mentions the word. -/
def Assembled (W : Watch) (s : State) : Prop :=
  ∃ before after, s.emission.current.pre = before ++ W.code :: after ∧ ∀ c ∈ before, W.Clean c

/-- No code of the innermost frame mentions the word. -/
structure Untouched (W : Watch) (s : State) : Prop where
  pre : ∀ c ∈ s.emission.current.pre, W.Clean c
  post : ∀ c ∈ s.emission.current.post, W.Clean c

/-- The buffer is at hand. If the list is `off`, it never is. -/
structure Built (W : Watch) (off : Prop) (s : State) : Prop where
  on : ¬ off
  assembled : W.Assembled s

/-- The buffer is not at hand, and the code does without it. The list may have been met already only
if it is `off`. -/
structure Calm (W : Watch) (off : Prop) (s : State) : Prop extends W.Untouched s where
  unmet : W.list ∈ s.memory.generated → off

/-- How an action that succeeds goes on from one state to another. If the list is `off`, it is not
met. -/
structure Goes (W : Watch) (off : Prop) (s t : State) : Prop where
  memory : s.memory.Grows t.memory
  emission : s.emission.Grows t.emission
  sound : s.memory.names.Sound → t.memory.names.Sound
  idle : off → W.list ∈ t.memory.generated → W.list ∈ s.memory.generated

/-- What comes of a list that is met on the way. -/
structure Passes (W : Watch) (s t : State) (held : Prop) : Prop where
  memory : s.memory.Grows t.memory
  emission : s.emission.Grows t.emission
  /-- Only the list has use for the name of its buffer. -/
  named : s.memory.names.memo.lookup W.key = none → t.memory.names.memo.lookup W.key ≠ none →
    W.list ∈ t.memory.generated
  /-- Where the list is met first, its buffer is assembled: in the innermost frame, or else in the
  code at hand, which `held` says. -/
  emits : t.memory.names.Extends W.final → W.list ∉ s.memory.generated →
    W.list ∈ t.memory.generated → W.code ∈ t.emission.current.pre ∨ held

/-- Both, for an action that yields no code. -/
structure Later (W : Watch) (off : Prop) (s t : State) : Prop extends W.Passes s t False,
    W.Goes off s t

section States

variable {W : Watch} {off : Prop} {s t u : State}

theorem Assembled.of_grown (h : W.Assembled s)
    (hpre : s.emission.current.pre <+: t.emission.current.pre) : W.Assembled t := by
  obtain ⟨before, after, heq, hclean⟩ := h
  obtain ⟨more, hmore⟩ := hpre
  exact ⟨before, after ++ more, by simp [← hmore, heq], hclean⟩

theorem Untouched.assembled (h : W.Untouched s) (hmem : W.code ∈ s.emission.current.pre) :
    W.Assembled s := by
  obtain ⟨before, after, heq⟩ := List.append_of_mem hmem
  exact ⟨before, after, heq, fun c hc => h.pre c (heq ▸ List.mem_append_left _ hc)⟩

namespace Goes

theorem refl (W : Watch) (off : Prop) (s : State) : W.Goes off s s :=
  ⟨.refl _, .refl _, id, fun _ => id⟩

theorem trans (h : W.Goes off s t) (k : W.Goes off t u) : W.Goes off s u where
  memory := h.memory.trans k.memory
  emission := h.emission.trans k.emission
  sound hs := k.sound (h.sound hs)
  idle hoff hmem := h.idle hoff (k.idle hoff hmem)

theorem mono {off' : Prop} (h : W.Goes off s t) (hoff : off' → off) : W.Goes off' s t :=
  ⟨h.memory, h.emission, h.sound, fun h' => h.idle (hoff h')⟩

end Goes

theorem Passes.refl (W : Watch) (s : State) (A : Prop) : W.Passes s s A :=
  ⟨.refl _, .refl _, fun hs ht => absurd hs ht, fun _ hs ht => absurd ht hs⟩

theorem Passes.trans {A B : Prop} (h : W.Passes s t A) (k : W.Passes t u B) :
    W.Passes s u (A ∨ B) where
  memory := h.memory.trans k.memory
  emission := h.emission.trans k.emission
  named hs hu := by
    by_cases ht : t.memory.names.memo.lookup W.key = none
    · exact k.named ht hu
    · exact k.memory.generated (h.named hs ht)
  emits hext hs hu := by
    by_cases ht : W.list ∈ t.memory.generated
    · have hcode := h.emits (k.memory.names.trans hext) hs ht
      exact hcode.imp (fun hmem => k.emission.pre.subset hmem) .inl
    · exact (k.emits hext ht hu).imp_right .inr

theorem Passes.mono {A B : Prop} (h : W.Passes s t A) (hAB : A → B) : W.Passes s t B :=
  ⟨h.memory, h.emission, h.named, fun hext hs ht => (h.emits hext hs ht).imp_right hAB⟩

namespace Later

theorem of_memory {m : Memory} (hgrows : s.memory.Grows m)
    (hsound : s.memory.names.Sound → m.names.Sound)
    (hnamed : m.names.memo.lookup W.key = s.memory.names.memo.lookup W.key)
    (hgenerated : W.list ∈ m.generated → W.list ∈ s.memory.generated) :
    W.Later off s { s with memory := m } where
  memory := hgrows
  emission := .refl _
  named hs ht := absurd (hnamed.trans hs) ht
  emits _ hs ht := absurd (hgenerated ht) hs
  sound := hsound
  idle _ := hgenerated

theorem note (ds : List Diagnostic) : W.Later off s (s.note ds) :=
  of_memory (.note ds _) id rfl id

theorem of_emission {e : Emission} (h : s.emission.Grows e) :
    W.Later off s { s with emission := e } where
  memory := .refl _
  emission := h
  named hs ht := absurd hs ht
  emits _ hs ht := absurd ht hs
  sound := id
  idle _ := id

theorem trans (h : W.Later off s t) (k : W.Later off t u) : W.Later off s u :=
  { (h.toPasses.trans k.toPasses).mono or_self_iff.1, h.toGoes.trans k.toGoes with }

theorem built (h : W.Later off s t) (hs : W.Built off s) : W.Built off t :=
  ⟨hs.on, hs.assembled.of_grown h.emission.pre⟩

end Later

end States

end Watch

/-- Where the buffer is not at hand and `C` holds, the action does without it or assembles it; if it
does without it, the result has `P`. -/
structure Spares (env : Env) (W : Watch) (off : Prop) {α : Type} (C : Prop) (x : LowerM α)
    (P : α → Prop) : Prop where
  later : ∀ {s a t}, x env s = (.ok a, t) → W.Later off s t
  run : ∀ {s a t}, x env s = (.ok a, t) → s.memory.names.Sound →
    t.memory.names.Extends W.final → W.Built off s ∨ W.Calm off s ∧ C →
    W.Built off t ∨ W.Calm off t ∧ P a

namespace Spares

variable {α β : Type} {env : Env} {W : Watch} {off C : Prop} {P : α → Prop} {Q : β → Prop}
  {x : LowerM α} {id : ExprId}

theorem bind {f : α → LowerM β} (hx : Spares env W off C x P)
    (hf : ∀ a, Returns env x a → Spares env W off (P a ∧ C) (f a) Q) :
    Spares env W off C (x >>= f) Q where
  later h := by
    obtain ⟨a, u, hu, h⟩ := exists_of_bind h
    exact (hx.later hu).trans ((hf a ⟨_, _, hu⟩).later h)
  run {s b t} h hs hext hcase := by
    obtain ⟨a, u, hu, h⟩ := exists_of_bind h
    have hfa := hf a ⟨s, u, hu⟩
    refine hfa.run h ((hx.later hu).sound hs) hext ?_
    rcases hcase with hbuilt | ⟨hcalm, hC⟩
    · exact .inl ((hx.later hu).built hbuilt)
    · have hext' := (hfa.later h).memory.names.trans hext
      exact (hx.run hu hs hext' (.inr ⟨hcalm, hC⟩)).imp_right fun h => ⟨h.1, h.2, hC⟩

theorem weaken {C' : Prop} (hx : Spares env W off C x P) (h : C' → C) : Spares env W off C' x P :=
  ⟨hx.later, fun hrun hs hext hcase => hx.run hrun hs hext (hcase.imp_right (.imp_right h))⟩

theorem conseq {P' : α → Prop} (hx : Spares env W off C x P) (h : ∀ a, P a → P' a) :
    Spares env W off C x P' :=
  ⟨hx.later, fun hrun hs hext hcase => (hx.run hrun hs hext hcase).imp_right (.imp_right (h _))⟩

/-- An action that does nothing but take notes. -/
theorem still
    (hx : ∀ {s a t}, x env s = (.ok a, t) → ∃ ds, t = s.note ds)
    (hP : ∀ a, Returns env x a → C → P a) : Spares env W off C x P where
  later h := by
    obtain ⟨ds, rfl⟩ := hx h
    exact .note ds
  run {s a t} h _ _ hcase := by
    have hret : Returns env x a := ⟨s, t, h⟩
    obtain ⟨ds, rfl⟩ := hx h
    refine hcase.imp (fun hs => (Watch.Later.note ds).built hs) fun hs => ⟨?_, hP a hret hs.2⟩
    exact ⟨⟨hs.1.pre, hs.1.post⟩, hs.1.unmet⟩

theorem pure {a : α} (h : C → P a) : Spares env W off C (Pure.pure a) P :=
  still (fun h => by cases h; exact exists_note _) fun b hb hC => hb.of_pure ▸ h hC

theorem throw {e : LowerError} : Spares env W off C (MonadExcept.throw e : LowerM α) P :=
  ⟨nofun, nofun⟩

theorem inEnv {y : LowerM α} (h : x env = y env) (hy : Spares env W off C y P) :
    Spares env W off C x P := ⟨fun hx => hy.later (h ▸ hx), fun hx => hy.run (h ▸ hx)⟩

/-! ### Operations on the state -/

theorem note (ds : List Diagnostic) : Spares env W off C (Lower.note ds) fun _ => True :=
  still (fun h => by cases h; exact ⟨ds, rfl⟩) fun _ _ _ => trivial

theorem cases_of_firstTime {s t : State} {first : Bool}
    (h : Lower.firstTime id env s = (.ok first, t)) :
    first = false ∧ id ∈ s.memory.generated ∧ t = s ∨
      first = true ∧ id ∉ s.memory.generated ∧ t = s.mark id := by
  rw [run_firstTime] at h
  split at h <;> rename_i hid <;> cases h
  · exact .inl ⟨rfl, List.contains_iff_mem.1 hid, rfl⟩
  · exact .inr ⟨rfl, fun hmem => hid (List.contains_iff_mem.2 hmem), rfl⟩

theorem firstTime (hne : id ≠ W.list) : Spares env W off C (Lower.firstTime id) fun _ => True := by
  have hold : ∀ {s : State}, W.list ∈ id :: s.memory.generated → W.list ∈ s.memory.generated :=
    fun hmem => (List.mem_cons.1 hmem).resolve_left hne.symm
  have hlater : ∀ {s b t}, Lower.firstTime id env s = (.ok b, t) → W.Later off s t := by
    intro s b t h
    rcases cases_of_firstTime h with ⟨_, _, rfl⟩ | ⟨_, _, rfl⟩
    · exact .of_memory (.refl _) (fun hs => hs) rfl fun hmem => hmem
    · exact .of_memory (.mark id _) (fun hs => hs) rfl hold
  refine ⟨hlater, fun {s b t} h _ _ hcase => ?_⟩
  refine hcase.imp (hlater h).built fun hs => ⟨?_, trivial⟩
  rcases cases_of_firstTime h with ⟨_, _, rfl⟩ | ⟨_, _, rfl⟩
  · exact hs.1
  · exact ⟨⟨hs.1.pre, hs.1.post⟩, fun hmem => hs.1.unmet (hold hmem)⟩

theorem hoist {code : String} (h : C → W.Clean code) :
    Spares env W off C (Lower.hoist code) fun _ => True where
  later h := by
    cases h
    exact .of_emission (.prepend code _)
  run {s _ t} hrun _ _ hcase := by
    cases hrun
    refine hcase.imp (Watch.Later.of_emission (.prepend code _)).built fun hs => ⟨?_, trivial⟩
    refine ⟨⟨?_, ?_⟩, hs.1.unmet⟩ <;> dsimp only [Emission.prepend] <;> split
    · exact hs.1.pre
    · intro c hc
      rcases List.mem_append.1 hc with hc | hc
      · exact hs.1.pre c hc
      · exact List.mem_singleton.1 hc ▸ h hs.2
    · exact hs.1.post
    · exact hs.1.post

theorem defer {code : String} (h : C → W.Clean code) :
    Spares env W off C (Lower.defer code) fun _ => True where
  later h := by
    cases h
    exact .of_emission (.append code _)
  run {s _ t} hrun _ _ hcase := by
    cases hrun
    refine hcase.imp (Watch.Later.of_emission (.append code _)).built fun hs => ⟨?_, trivial⟩
    refine ⟨⟨hs.1.pre, fun c hc => ?_⟩, hs.1.unmet⟩
    rcases List.mem_append.1 hc with hc | hc
    · exact hs.1.post c hc
    · exact List.mem_singleton.1 hc ▸ h hs.2

/-! ### Names -/

/-- A name that was not in use is the buffer's name only if the buffer gets it later. -/
theorem freshName (hW : W.Fits env.toTypeScope) (hint : String) :
    Spares env W off C (Lower.freshName hint) W.Clean where
  later {s _ _} h := by
    cases h
    exact .of_memory (.of_names (.fresh _ hint)) (·.fresh hint) rfl id
  run {s m t} hrun hs hext hcase := by
    cases hrun
    refine hcase.imp (fun hs => ⟨hs.on, hs.assembled⟩) fun hcalm => ⟨?_, ?_⟩
    · exact ⟨⟨hcalm.1.pre, hcalm.1.post⟩, hcalm.1.unmet⟩
    · have hnew := s.memory.names.numbered_nextNumber_notMem hint
      refine hW.others _ (hext.used _ (List.mem_cons_self ..)) fun hkey => ?_
      rcases hext.added _ _ hkey with hkey | hnot
      · exact hnew (hs.mem_used hkey)
      · exact hnot (List.mem_cons_self ..)

/-- What is filed under something else is not the name of the buffer. -/
theorem nameOf (hW : W.Fits env.toTypeScope) {hint : String} (hne : (hint, id.text) ≠ W.key) :
    Spares env W off C (Lower.nameOf hint id) W.Clean where
  later h := by
    cases h
    exact .of_memory (.of_names (.named _ hint id.text)) (·.named hint id.text)
      (NameSupply.lookup_named_of_ne _ hne) fun hmem => hmem
  run {s m t} hrun hs hext hcase := by
    cases hrun
    refine hcase.imp (fun hs => ⟨hs.on, hs.assembled⟩) fun hcalm => ⟨?_, ?_⟩
    · exact ⟨⟨hcalm.1.pre, hcalm.1.post⟩, hcalm.1.unmet⟩
    · have hlookup := hext.kept _ _ (s.memory.names.lookup_named hint id.text)
      exact hW.others _ (hW.sound.mem_used hlookup) fun hkey =>
        hne (hW.sound.key_eq hlookup hkey)

end Spares

end PacketC.Lower
